import Recognition.Http.Weighted
import Recognition.Proofs.Http.Window

namespace Recognition.Http

namespace Weighted

variable {α : Type} {r : Reader α} {w u q : Window} {a : Weighted α} {pos : Nat}
  {bytes skipped rest : List UInt8}

theorem attributes_eq (sofar : Weight) (w : Window) : attributes sofar w =
    match semicolon? w with
    | none => .ok (sofar, [], w)
    | some v =>
      match weightName? v with
      | some q =>
        match Http.weight.read q with
        | some (found, u) => if endsWeight u then attributes found u else .error q
        | none => .error q
      | none =>
        match parameter.read v with
        | some (p, u) => (attributes sofar u).map fun (found, ps, x) => (found, p :: ps, x)
        | none => .ok (sofar, [], w) := by
  rw [attributes]
  split
  · simp_all
  · split
    · split <;> simp_all
    · split <;> simp_all

theorem forall_ne_of_notMem {b : UInt8} (h : b ∉ bytes) : ∀ c ∈ bytes, decide (c ≠ b) = true := by
  intro c hc
  simp only [decide_eq_true_eq]
  rintro rfl
  exact h hc

theorem takeWhile_of_split (hskipped : Byte.comma ∉ skipped) :
    (skipped ++ Byte.comma :: rest).takeWhile (· ≠ Byte.comma) = skipped := by
  rw [List.takeWhile_append_of_pos (forall_ne_of_notMem hskipped)]
  simp

theorem dropWhile_of_split (hskipped : Byte.comma ∉ skipped) :
    (skipped ++ Byte.comma :: rest).dropWhile (· ≠ Byte.comma) = Byte.comma :: rest := by
  rw [List.dropWhile_append_of_pos (forall_ne_of_notMem hskipped)]
  simp

theorem split_unique {skipped' rest' : List UInt8} (hskipped : Byte.comma ∉ skipped)
    (hskipped' : Byte.comma ∉ skipped')
    (h : skipped ++ Byte.comma :: rest = skipped' ++ Byte.comma :: rest') :
    skipped = skipped' ∧ rest = rest' := by
  have hbefore := congrArg (List.takeWhile (· ≠ Byte.comma)) h
  have hafter := congrArg (List.dropWhile (· ≠ Byte.comma)) h
  rw [takeWhile_of_split hskipped, takeWhile_of_split hskipped'] at hbefore
  rw [dropWhile_of_split hskipped, dropWhile_of_split hskipped'] at hafter
  exact ⟨hbefore, (List.cons.inj hafter).2⟩

section Items

variable (hw : .cut pos bytes = w)

include hw

theorem items_of_none (h : item? r (itemStart w) = none) : items r pos bytes = [] := by
  subst hw
  rw [items]
  split <;> simp_all

theorem items_of_ok (h : item? r (itemStart w) = some (.ok (a, u))) :
    items r pos bytes = a :: items r u.pos (bytes.drop (u.pos - pos)) := by
  subst hw
  rw [items]
  split <;> simp_all

theorem items_of_error (h : item? r (itemStart w) = some (.error q))
    (hsplit : bytes.drop (q.pos - pos) = skipped ++ Byte.comma :: rest)
    (hskipped : Byte.comma ∉ skipped) :
    items r pos bytes = items r (q.pos + skipped.length) (Byte.comma :: rest) := by
  subst hw
  have hnext : (bytes.drop (q.pos - pos)).dropWhile (· ≠ Byte.comma) = Byte.comma :: rest := by
    rw [hsplit, dropWhile_of_split hskipped]
  have hlength : (bytes.drop (q.pos - pos)).length - (Byte.comma :: rest).length =
      skipped.length := by
    rw [hsplit, List.length_append, Nat.add_sub_cancel]
  rw [items]
  split
  · simp_all
  · simp_all
  · rename_i p hp
    obtain rfl : q = p := by simpa [h] using hp
    simp only [hnext, hlength, reduceCtorEq, if_false]

theorem items_of_error_of_notMem (h : item? r (itemStart w) = some (.error q))
    (hcomma : Byte.comma ∉ bytes.drop (q.pos - pos)) : items r pos bytes = [] := by
  subst hw
  have hnext : (bytes.drop (q.pos - pos)).dropWhile (· ≠ Byte.comma) = [] := by
    rw [List.dropWhile_eq_nil_iff]
    exact forall_ne_of_notMem hcomma
  rw [items]
  split
  · simp_all
  · simp_all
  · rename_i p hp
    obtain rfl : q = p := by simpa [h] using hp
    simp only [hnext, if_true]

end Items

theorem item?_of_nil (h : w.rest = []) : item? r w = none := by
  rw [item?, (valueOrAny r).read_of_nil h]
  rfl

theorem items_nil (r : Reader α) (pos : Nat) : items r pos [] = [] := by
  apply items_of_none rfl
  apply item?_of_nil
  have hle := Window.length_le (itemStart_le (.cut pos []))
  exact List.eq_nil_of_length_eq_zero (Nat.le_zero.1 hle)

/-- The last value of the list in a window is dropped for its weight, and no comma follows. -/
inductive EndsDropped (r : Reader α) : Window → Prop
  | kept {w u : Window} {a : Weighted α} (h : item? r (itemStart w) = some (.ok (a, u)))
    (hu : EndsDropped r u) : EndsDropped r w
  | dropped {w q : Window} {skipped rest : List UInt8}
    (h : item? r (itemStart w) = some (.error q))
    (hsplit : q.rest = skipped ++ Byte.comma :: rest) (hskipped : Byte.comma ∉ skipped)
    (hq : EndsDropped r ⟨q.pos + skipped.length, Byte.comma :: rest⟩) : EndsDropped r w
  | last {w q : Window} (h : item? r (itemStart w) = some (.error q))
    (hcomma : Byte.comma ∉ q.rest) : EndsDropped r w

namespace EndsDropped

theorem not_of_none (h : item? r (itemStart w) = none) : ¬ EndsDropped r w := by
  intro hends
  cases hends <;> simp_all

theorem iff_of_ok (h : item? r (itemStart w) = some (.ok (a, u))) :
    EndsDropped r w ↔ EndsDropped r u := by
  refine ⟨fun hends => ?_, .kept h⟩
  cases hends <;> simp_all

theorem iff_of_error (h : item? r (itemStart w) = some (.error q))
    (hsplit : q.rest = skipped ++ Byte.comma :: rest) (hskipped : Byte.comma ∉ skipped) :
    EndsDropped r w ↔ EndsDropped r ⟨q.pos + skipped.length, Byte.comma :: rest⟩ := by
  refine ⟨fun hends => ?_, .dropped h hsplit hskipped⟩
  cases hends with
  | kept h' => simp_all
  | @dropped _ p skipped' rest' h' hsplit' hskipped' hp =>
    obtain rfl : q = p := by simpa [h] using h'
    obtain ⟨rfl, rfl⟩ := split_unique hskipped hskipped' (hsplit.symm.trans hsplit')
    exact hp
  | @last _ p h' hcomma =>
    obtain rfl : q = p := by simpa [h] using h'
    simp [hsplit] at hcomma

end EndsDropped

section Nul

variable {before after : List UInt8}

theorem cut_of_notMem (hnul : 0 ∉ before) : Window.cut pos before = ⟨pos, before⟩ := by
  rw [Window.cut, List.takeWhile_eq_self_iff.2 (forall_ne_of_notMem hnul)]

theorem cut_append_nul (hnul : 0 ∉ before) :
    Window.cut pos (before ++ 0 :: after) = ⟨pos, before⟩ := by
  rw [Window.cut, List.takeWhile_append_of_pos (forall_ne_of_notMem hnul)]
  simp

theorem exists_of_lt_mk (h : u < ⟨pos, before⟩) :
    ∃ n, 0 < n ∧ n ≤ before.length ∧ u = ⟨pos + n, before.drop n⟩ := by
  obtain ⟨n, hpos, hn, rfl⟩ := h
  exact ⟨n, hpos, hn, by rw [Window.drop, Nat.min_eq_left hn]⟩

/-- A NUL after `before` ends the list, except after a value that is dropped with no comma before
the NUL: the list goes on at the first comma of `after` then. -/
def NulEnds (r : Reader α) (pos : Nat) (before after : List UInt8) : Prop :=
  (¬ EndsDropped r ⟨pos, before⟩ → items r pos (before ++ 0 :: after) = items r pos before) ∧
  (EndsDropped r ⟨pos, before⟩ →
    items r pos (before ++ 0 :: after) = items r pos before ++
      items r (pos + (before.length + 1) + (after.takeWhile (· ≠ Byte.comma)).length)
        (after.dropWhile (· ≠ Byte.comma)))

variable (hnul : 0 ∉ before)

include hnul

theorem nulEnds_of_none (h : item? r (itemStart ⟨pos, before⟩) = none) :
    NulEnds r pos before after := by
  refine ⟨fun _ => ?_, fun hends => absurd hends (EndsDropped.not_of_none h)⟩
  rw [items_of_none (cut_of_notMem hnul) h, items_of_none (cut_append_nul hnul) h]

theorem nulEnds_of_ok {n : Nat} (hn : n ≤ before.length)
    (h : item? r (itemStart ⟨pos, before⟩) = some (.ok (a, ⟨pos + n, before.drop n⟩)))
    (ih : NulEnds r (pos + n) (before.drop n) after) : NulEnds r pos before after := by
  have hsum : pos + n + ((before.drop n).length + 1) = pos + (before.length + 1) := by
    rw [List.length_drop]
    omega
  rw [NulEnds, EndsDropped.iff_of_ok h, items_of_ok (cut_of_notMem hnul) h,
    items_of_ok (cut_append_nul hnul) h]
  simp only [Nat.add_sub_cancel_left, List.drop_append_of_le_length hn]
  refine ⟨fun hends => by rw [ih.1 hends], fun hends => ?_⟩
  rw [ih.2 hends, hsum, List.cons_append]

theorem nulEnds_of_comma {n : Nat} (hn : n ≤ before.length)
    (h : item? r (itemStart ⟨pos, before⟩) = some (.error ⟨pos + n, before.drop n⟩))
    (hsplit : before.drop n = skipped ++ Byte.comma :: rest) (hskipped : Byte.comma ∉ skipped)
    (ih : NulEnds r (pos + n + skipped.length) (Byte.comma :: rest) after) :
    NulEnds r pos before after := by
  have hsum : pos + n + skipped.length + ((Byte.comma :: rest).length + 1) =
      pos + (before.length + 1) := by
    have hcount := congrArg List.length hsplit
    rw [List.length_drop, List.length_append] at hcount
    omega
  have hfull : items r pos (before ++ 0 :: after) =
      items r (pos + n + skipped.length) (Byte.comma :: rest ++ 0 :: after) := by
    apply items_of_error (cut_append_nul hnul) h ?_ hskipped
    rw [Nat.add_sub_cancel_left, List.drop_append_of_le_length hn, hsplit, List.append_assoc]
    rfl
  have hshort : items r pos before = items r (pos + n + skipped.length) (Byte.comma :: rest) := by
    apply items_of_error (cut_of_notMem hnul) h ?_ hskipped
    rw [Nat.add_sub_cancel_left, hsplit]
  rw [NulEnds, EndsDropped.iff_of_error h hsplit hskipped, hfull, hshort]
  refine ⟨ih.1, fun hends => ?_⟩
  rw [ih.2 hends, hsum]

theorem nulEnds_of_last {n : Nat} (hn : n ≤ before.length)
    (h : item? r (itemStart ⟨pos, before⟩) = some (.error ⟨pos + n, before.drop n⟩))
    (hcomma : Byte.comma ∉ before.drop n) : NulEnds r pos before after := by
  have hleft : (before ++ 0 :: after).drop (pos + n - pos) = before.drop n ++ 0 :: after := by
    rw [Nat.add_sub_cancel_left, List.drop_append_of_le_length hn]
  have hlong : ∀ {bytes : List UInt8}, Byte.comma ∉ bytes →
      Byte.comma ∉ before.drop n ++ 0 :: bytes := by
    intro bytes hbytes
    rw [List.mem_append, List.mem_cons, not_or, not_or]
    exact ⟨hcomma, by decide, hbytes⟩
  refine ⟨fun hends => absurd (.last h hcomma) hends, fun _ => ?_⟩
  rw [items_of_error_of_notMem (cut_of_notMem hnul) h (by rwa [Nat.add_sub_cancel_left]),
    List.nil_append]
  by_cases hafter : Byte.comma ∈ after
  · obtain ⟨skipped, rest, rfl, hskipped⟩ := List.eq_append_cons_of_mem hafter
    have hsum : pos + n + (before.drop n ++ 0 :: skipped).length =
        pos + (before.length + 1) + skipped.length := by
      simp only [List.length_append, List.length_drop, List.length_cons]
      omega
    rw [items_of_error (cut_append_nul hnul) h
      (hleft.trans (List.append_assoc _ (0 :: skipped) _).symm) (hlong hskipped),
      takeWhile_of_split hskipped, dropWhile_of_split hskipped]
    exact congrArg (items r · _) hsum
  · rw [items_of_error_of_notMem (cut_append_nul hnul) h (by rw [hleft]; exact hlong hafter),
      List.dropWhile_eq_nil_iff.2 (forall_ne_of_notMem hafter), items_nil]

theorem nulEnds : NulEnds r pos before after := by
  -- Each value takes something off the bytes before the NUL, be it kept or dropped.
  induction hlength : before.length using Nat.strongRecOn generalizing pos before with
  | ind length ih =>
    subst hlength
    cases hitem : item? r (itemStart ⟨pos, before⟩) with
    | none => exact nulEnds_of_none hnul hitem
    | some outcome =>
      cases outcome with
      | ok found =>
        obtain ⟨a, u⟩ := found
        obtain ⟨n, hpos, hn, rfl⟩ :=
          exists_of_lt_mk (Window.lt_of_lt_of_le (item?_ok_lt hitem) (itemStart_le _))
        have hshorter : (before.drop n).length < before.length := by
          rw [List.length_drop]
          omega
        exact nulEnds_of_ok hnul hn hitem
          (ih _ hshorter (fun h => hnul (List.mem_of_mem_drop h)) rfl)
      | error q =>
        obtain ⟨n, hpos, hn, rfl⟩ :=
          exists_of_lt_mk (Window.lt_of_lt_of_le (item?_error_lt hitem) (itemStart_le _))
        by_cases hcomma : Byte.comma ∈ before.drop n
        · obtain ⟨skipped, rest, hsplit, hskipped⟩ := List.eq_append_cons_of_mem hcomma
          have hshorter : (Byte.comma :: rest).length < before.length := by
            have hcount := congrArg List.length hsplit
            rw [List.length_drop, List.length_append] at hcount
            omega
          have hkept : 0 ∉ Byte.comma :: rest := by
            intro h
            apply hnul
            apply List.mem_of_mem_drop
            rw [hsplit]
            exact List.mem_append_right _ h
          exact nulEnds_of_comma hnul hn hitem hsplit hskipped (ih _ hshorter hkept rfl)
        · exact nulEnds_of_last hnul hn hitem hcomma

end Nul

end Weighted

namespace WeightedList

variable {α : Type} {text : List UInt8} {start n : Nat} {stop : Option Nat}

theorem getElem?_upTo (hstop : ∀ e, stop = some e → n < e) :
    (Window.upTo text stop)[n]? = text[n]? := by
  cases stop with
  | none => rfl
  | some e => rw [Window.upTo, List.getElem?_take_of_lt (hstop e rfl)]

theorem take_upTo (hstop : ∀ e, stop = some e → n < e) :
    (Window.upTo text stop).take n = text.take n := by
  cases stop with
  | none => rfl
  | some e => rw [Window.upTo, List.take_take, Nat.min_eq_left (Nat.le_of_lt (hstop e rfl))]

theorem drop_upTo_of_nul (hle : start ≤ n) (hnul : text[n]? = some 0)
    (hstop : ∀ e, stop = some e → n < e) :
    (Window.upTo text stop).drop start =
      (text.take n).drop start ++ 0 :: (Window.upTo text stop).drop (n + 1) := by
  rw [← getElem?_upTo hstop] at hnul
  obtain ⟨hn, hzero⟩ := List.getElem?_eq_some_iff.1 hnul
  rw [← take_upTo hstop, ← hzero, ← List.drop_eq_getElem_cons hn, ← List.drop_append_of_le_length,
    List.take_append_drop]
  rw [List.length_take]
  omega

/-- The offset of the first comma after `n`, or of the bound if there is none. -/
def nextComma (text : List UInt8) (n : Nat) (stop : Option Nat) : Nat :=
  n + 1 + (((Window.upTo text stop).drop (n + 1)).takeWhile (· ≠ Byte.comma)).length

theorem drop_nextComma (text : List UInt8) (n : Nat) (stop : Option Nat) :
    (Window.upTo text stop).drop (nextComma text n stop) =
      ((Window.upTo text stop).drop (n + 1)).dropWhile (· ≠ Byte.comma) := by
  rw [nextComma, ← List.drop_drop]
  exact Window.skip_rest (· ≠ Byte.comma) ⟨0, (Window.upTo text stop).drop (n + 1)⟩

/-- Values are taken in up to the first NUL only, as if the text ended there. The only exception is
a list whose last value before the NUL is dropped for its weight and has no comma after it: there
the values from the first comma after the NUL on are taken in too. -/
theorem insert_nul (c : WeightedList α) (r : Reader α) (hle : start ≤ n) (hnul : text[n]? = some 0)
    (hfirst : ∀ i, start ≤ i → i < n → text[i]? ≠ some 0)
    (hstop : ∀ e, stop = some e → n < e) :
    (¬ Weighted.EndsDropped r (.of text start (some n)) →
      c.insert r text start stop = c.insert r text start (some n)) ∧
    (Weighted.EndsDropped r (.of text start (some n)) →
      c.insert r text start stop =
        (c.insert r text start (some n)).insert r text (nextComma text n stop) stop) := by
  have hbefore : 0 ∉ (text.take n).drop start := by
    intro hmem
    obtain ⟨k, hk⟩ := List.mem_iff_getElem?.1 hmem
    rw [List.getElem?_drop, List.getElem?_take] at hk
    split at hk
    · exact hfirst (start + k) (Nat.le_add_right _ _) ‹_› hk
    · cases hk
  have hwindow : Window.of text start (some n) = ⟨start, (text.take n).drop start⟩ :=
    Weighted.cut_of_notMem hbefore
  have hnext : start + (((text.take n).drop start).length + 1) = n + 1 := by
    have hlength : n < text.length := (List.getElem?_eq_some_iff.1 hnul).1
    rw [List.length_drop, List.length_take]
    omega
  obtain ⟨hopen, hclosed⟩ : Weighted.NulEnds r start ((text.take n).drop start)
      ((Window.upTo text stop).drop (n + 1)) := Weighted.nulEnds hbefore
  rw [hwindow]
  unfold insert
  rw [drop_upTo_of_nul hle hnul hstop, drop_nextComma]
  refine ⟨fun hends => ?_, fun hends => ?_⟩
  · rw [hopen hends]
    rfl
  · rw [hclosed hends, hnext, List.foldl_append]
    rfl

/-- A comma follows the value that is dropped before the NUL, so the NUL ends the list. -/
theorem insert_nul_after_comma :
    (empty.insert token "a;q=x,b\x00,c".toUTF8.data.toList 0 none =
      empty.insert token "a;q=x,b\x00,c".toUTF8.data.toList 0 (some 7)) ∧
      empty.insert token "a;q=x,b\x00,c".toUTF8.data.toList 0 (some 7) =
        ⟨[⟨⟨6, 7⟩, some ⟨6, 7⟩, .one, []⟩]⟩ := by
  have hfirst : ∀ i < 7, "a;q=x,b\x00,c".toUTF8.data.toList[i]? ≠ some 0 := by decide
  have hdropped : Weighted.item? token (Weighted.itemStart
      (.of "a;q=x,b\x00,c".toUTF8.data.toList 0 (some 7))) =
      some (.error ⟨4, [0x78] ++ Byte.comma :: [0x62]⟩) := by
    decide +kernel
  have hkept : Weighted.item? token (Weighted.itemStart ⟨5, Byte.comma :: [0x62]⟩) =
      some (.ok (⟨⟨6, 7⟩, some ⟨6, 7⟩, .one, []⟩, ⟨7, []⟩)) := by
    decide +kernel
  have hends : ¬ Weighted.EndsDropped token
      (.of "a;q=x,b\x00,c".toUTF8.data.toList 0 (some 7)) := by
    rw [Weighted.EndsDropped.iff_of_error hdropped rfl (by decide)]
    apply mt (Weighted.EndsDropped.iff_of_ok hkept).1
    exact Weighted.EndsDropped.not_of_none (Weighted.item?_of_nil rfl)
  exact ⟨(insert_nul empty token (Nat.zero_le 7) (by decide)
    (fun i _ => hfirst i) (by simp)).1 hends,
    by decide +kernel⟩

/-- A value after the NUL is taken in. -/
theorem insert_nul_after_dropped :
    empty.insert token "a;q=x\x00,b".toUTF8.data.toList 0 none =
        ⟨[⟨⟨7, 8⟩, some ⟨7, 8⟩, .one, []⟩]⟩ ∧
      "a;q=x\x00,b".toUTF8.data.toList[5]? = some 0 ∧
      empty.insert token "a;q=x\x00,b".toUTF8.data.toList 0 (some 5) = empty := by
  refine ⟨?_, ?_, ?_⟩ <;> decide +kernel

end WeightedList

end Recognition.Http
