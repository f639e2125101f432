import Mathlib.Data.List.DropRight
import Recognition.Proofs.Http.LineScan

namespace Recognition.Http

open Window

namespace Header

variable {value : Option Span} {pos k : Nat} {b : UInt8} {bs bytes : List UInt8} {v w : Window}

/-- The value so far, after the byte at `pos`, which is not white space. -/
def extend (value : Option Span) (pos : Nat) : Span := ⟨(value.map Span.start).getD pos, pos + 1⟩

/-- The value after bytes that begin at `pos`. -/
def gather (value : Option Span) : Nat → List UInt8 → Option Span
  | _, [] => value
  | pos, b :: bs =>
    if isSpace b then gather value (pos + 1) bs else gather (some (extend value pos)) (pos + 1) bs

theorem gather_append (value : Option Span) (pos : Nat) (bs bytes : List UInt8) :
    gather value pos (bs ++ bytes) = gather (gather value pos bs) (pos + bs.length) bytes := by
  induction bs generalizing value pos with
  | nil => rfl
  | cons b bs ih =>
    have hsum : pos + 1 + bs.length = pos + (b :: bs).length := by
      rw [List.length_cons]
      omega
    by_cases hb : isSpace b <;> simp [gather, hb, ih, hsum]

theorem gather_of_all (h : bs.all isSpace = true) : gather value pos bs = value := by
  induction bs generalizing pos with
  | nil => rfl
  | cons b bs ih =>
    rw [List.all_cons, Bool.and_eq_true] at h
    rw [gather, if_pos h.1, ih h.2]

theorem takeWhile_append_singleton (h : bs.all isSpace = false ∨ isSpace b = false) :
    (bs ++ [b]).takeWhile isSpace = bs.takeWhile isSpace ∧
      (bs ++ [b]).dropWhile isSpace = bs.dropWhile isSpace ++ [b] := by
  rw [List.takeWhile_append, List.dropWhile_append]
  by_cases hall : bs.all isSpace = true
  · have hb : isSpace b = false := by simpa [hall] using h
    have hself := List.takeWhile_eq_self_iff.2 (List.all_eq_true.1 hall)
    have hnil := List.dropWhile_eq_nil_iff.2 (List.all_eq_true.1 hall)
    simp [hself, hnil, hb]
  · have hne : bs.dropWhile isSpace ≠ [] := by
      rw [Ne, List.dropWhile_eq_nil_iff, ← List.all_eq_true]
      exact hall
    have hlength : (bs.takeWhile isSpace).length ≠ bs.length := by
      rintro hlength
      have hsplit := congrArg List.length (List.takeWhile_append_dropWhile (p := isSpace) (l := bs))
      rw [List.length_append, hlength] at hsplit
      exact hne (List.eq_nil_of_length_eq_zero (by omega))
    rw [if_neg hlength, if_neg (by simpa using hne)]
    exact ⟨rfl, rfl⟩

theorem trimmed_append_of_space (h : bs.all isSpace = false) (hb : isSpace b = true) :
    trimmed pos (bs ++ [b]) = trimmed pos bs := by
  obtain ⟨htake, hdrop⟩ := takeWhile_append_singleton (b := b) (.inl h)
  simp [trimmed, htake, hdrop, hb]

theorem trimmed_append_of_not_space (hb : isSpace b = false) :
    trimmed pos (bs ++ [b]) = ⟨pos + (bs.takeWhile isSpace).length, pos + bs.length + 1⟩ := by
  have happend := takeWhile_append_singleton (.inr hb : bs.all isSpace = false ∨ _)
  obtain ⟨htake, hdrop⟩ := happend
  have hsplit := congrArg List.length (List.takeWhile_append_dropWhile (p := isSpace) (l := bs))
  rw [List.length_append] at hsplit
  simp [trimmed, htake, hdrop, hb]
  omega

theorem trimmed_start (h : bs.all isSpace = false) :
    (trimmed pos bs).start = pos + (bs.takeWhile isSpace).length := by
  have hne : bs.dropWhile isSpace ≠ [] := by
    rw [Ne, List.dropWhile_eq_nil_iff, ← List.all_eq_true, h]
    exact Bool.false_ne_true
  have hinner : ((bs.dropWhile isSpace).reverse.dropWhile isSpace).length ≠ 0 := by
    rw [Ne, List.length_eq_zero_iff, List.dropWhile_eq_nil_iff]
    intro hall
    have hnil := List.dropWhile_eq_nil_iff.2 fun b hb => hall b (List.mem_reverse.2 hb)
    rw [List.dropWhile_idempotent] at hnil
    exact hne hnil
  rw [trimmed, if_neg hinner]

/-- What was gathered is the value without the white space around it. -/
theorem gather_eq (pos : Nat) (bytes : List UInt8) :
    gather none pos bytes = if bytes.all isSpace then none else some (trimmed pos bytes) := by
  induction bytes using List.reverseRecOn with
  | nil => rfl
  | append_singleton bs b ih =>
    rw [gather_append, ih]
    by_cases hb : isSpace b = true
    · by_cases hall : bs.all isSpace = true
      · simp [gather, hall, hb]
      · rw [Bool.not_eq_true] at hall
        simp [gather, hall, hb, trimmed_append_of_space hall hb]
    · rw [Bool.not_eq_true] at hb
      rw [trimmed_append_of_not_space hb]
      by_cases hall : bs.all isSpace = true
      · have hself := List.takeWhile_eq_self_iff.2 (List.all_eq_true.1 hall)
        simp [gather, hall, hb, extend, hself]
      · rw [Bool.not_eq_true] at hall
        simp [gather, hall, hb, extend, trimmed_start hall]

/-- What is left of a value, gathered, and the window after it. -/
def gatherLine (value : Option Span) (w : Window) : Option Span × Window :=
  (gather value w.pos (w.rest.take (lineCount w.rest)), w.drop (lineCount w.rest))

theorem gatherLine_drop (hk : k ≤ w.rest.length) (hspace : (w.rest.take k).all isSpace = true)
    (hcount : lineCount w.rest = k + lineCount (w.rest.drop k)) :
    gatherLine value w = gatherLine value (w.drop k) := by
  have hlength : (w.rest.take k).length = k := List.length_take_of_le hk
  have hpos : (w.drop k).pos = w.pos + k := by rw [drop, Nat.min_eq_left hk]
  rw [gatherLine, gatherLine, drop_drop, hcount, List.take_add, gather_append, gather_of_all hspace,
    hlength, hpos]
  rfl

theorem gatherLine_of_all (value : Option Span) (hspace : (w.rest.take k).all isSpace = true)
    (hcount : lineCount w.rest = k) : gatherLine value w = (value, w.drop k) := by
  rw [gatherLine, hcount, gather_of_all hspace]

theorem lineCount_cons (hb : b ≠ Byte.lf) : lineCount (b :: bs) = lineCount bs + 1 := by
  rw [lineCount, if_neg (by simp [hb])]

theorem gatherLine_cons (h : w.rest = b :: bs) (hb : isSpace b = false) :
    gatherLine value w = gatherLine (some (extend value w.pos)) (w.drop 1) := by
  have hlf : b ≠ Byte.lf := by
    rintro rfl
    cases hb
  have hpos : (w.drop 1).pos = w.pos + 1 := by simp [drop, h]
  have hrest : (w.drop 1).rest = bs := by simp [drop, h]
  rw [gatherLine, gatherLine, drop_drop, hpos, hrest, h, lineCount_cons hlf, List.take_succ_cons,
    gather, hb, Nat.add_comm 1]
  rfl

theorem lineCount_of_afterBreak? (h : w.afterBreak? = some v) :
    ∃ k, v = w.drop k ∧ k ≤ w.rest.length ∧ (w.rest.take k).all isSpace = true ∧
      lineCount w.rest = if continues v.rest then k + lineCount v.rest else k := by
  have hlf : isSpace Byte.lf = true := by decide
  have hcr : isSpace Byte.cr = true := by decide
  have hne : Byte.cr ≠ Byte.lf := by decide
  obtain ⟨k, hk, rfl⟩ := Option.map_eq_some_iff.1 h
  refine ⟨k, rfl, (breakLength?_bounds hk).2, ?_, ?_⟩
  · rcases breakLength?_cases hk with ⟨rfl, bs, hrest⟩ | ⟨rfl, bs, hrest⟩ <;> simp [hrest, hlf, hcr]
  · rcases breakLength?_cases hk with ⟨rfl, bs, hrest⟩ | ⟨rfl, bs, hrest⟩
    · have hcount : lineCount w.rest = if continues bs then 1 + lineCount bs else 1 := by
        rw [hrest, lineCount]
        cases continues bs <;> simp [Nat.add_comm]
      simpa [drop, hrest] using hcount
    · have hcount : lineCount w.rest = if continues bs then 2 + lineCount bs else 2 := by
        rw [hrest, lineCount_cons hne, lineCount]
        cases continues bs
        · simp
        · simp
          omega
      simpa [drop, hrest] using hcount

theorem continues_eq (w : Window) :
    continues w.rest = (w.afterBreak?.isNone && w.rest.head?.any isSpace) := by
  cases hrest : w.rest with
  | nil => simp [continues]
  | cons b bs =>
    have hbreak : (w.afterBreak?.isNone) = !isLineBreakAt (b :: bs) := by
      rw [afterBreak?, Option.isNone_map, hrest, breakLength?, isLineBreakAt]
      by_cases hlf : b = Byte.lf
      · simp [hlf]
      · by_cases hcr : b = Byte.cr ∧ bs.head? = some Byte.lf
        · obtain ⟨rfl, hhead⟩ := hcr
          simp [hlf, hhead]
        · have hcr' : (b == Byte.cr && bs.head? == some Byte.lf) = false := by simpa using hcr
          simp [hlf, hcr, hcr']
    rw [continues, hbreak, Bool.and_comm]
    rfl

theorem gatherLine_of_space (value : Option Span) (hbreak : w.afterBreak? = none)
    (hspace : w.rest.head?.any isSpace = true) :
    w.drop 1 < w ∧ gatherLine value w = gatherLine value (w.drop 1) := by
  cases hrest : w.rest with
  | nil => simp [hrest] at hspace
  | cons b bs =>
    have hlf : b ≠ Byte.lf := by
      rintro rfl
      exact head?_ne_lf hbreak (by rw [hrest]; rfl)
    have hb : isSpace b = true := by simpa [hrest] using hspace
    refine ⟨(skip_of_any hspace).1, gatherLine_drop ?_ ?_ ?_⟩
    · simp [hrest]
    · simp [hrest, hb]
    · rw [hrest, lineCount_cons hlf, Nat.add_comm]
      rfl

theorem gatherLine_of_break (value : Option Span) (hbreak : w.afterBreak? = some v) :
    gatherLine value w =
      if v.afterBreak?.isNone && v.rest.head?.any isSpace then gatherLine value (v.drop 1)
      else (value, v) := by
  obtain ⟨k, rfl, hk, hspace, hcount⟩ := lineCount_of_afterBreak? hbreak
  rw [continues_eq] at hcount
  split
  · rename_i hcontinues
    rw [if_pos hcontinues] at hcount
    rw [Bool.and_eq_true, Option.isNone_iff_eq_none] at hcontinues
    rw [gatherLine_drop hk hspace hcount, (gatherLine_of_space value hcontinues.1 hcontinues.2).2]
  · rename_i hends
    rw [if_neg hends] at hcount
    exact gatherLine_of_all value hspace hcount

theorem gatherLine_nil (h : w.rest = []) : gatherLine value w = (value, w) := by
  rw [gatherLine, h, lineCount, drop_zero]
  rfl

theorem gatherLine_none (w : Window) : (gatherLine none w).1.getD (.empty w.pos) =
    trimmed w.pos (w.rest.take (lineCount w.rest)) := by
  rw [gatherLine, gather_eq]
  split
  · rename_i hall
    have hnil := List.dropWhile_eq_nil_iff.2 (List.all_eq_true.1 hall)
    rw [trimmed, hnil]
    rfl
  · rfl

end Header

namespace Scan

open Header

def lastByte : Scan Span := do
  next
  let stop ← here
  return ⟨← lift (Checked.difference stop 1), stop⟩

/-- The range from the first byte of a value to the last that is not white space, up to the end of
the last line that continues the value. -/
def headerValue : Scan (Option Span) :=
  loop (fun value => ifFound eatBreak
    (fun _ => ifFound lineBreak (fun _ => pure (.inl value))
      (ifFound (accept isSpace) (fun _ => pure (.inr value)) (pure (.inl value))))
    (ifFound (accept isSpace) (fun _ => pure (.inr value))
      (ifFound lastByte
        (fun last => pure (.inr (some (value.elim last fun s => ⟨s.start, last.stop⟩))))
        (pure (.inl value))))) none

theorem follows_lastByte : Follows lastByte fun w =>
    if w.rest = [] then none else some (⟨w.pos, w.pos + 1⟩, w.drop 1) := by
  intro c
  have hrun := (follows_accept (fun _ => true) c).run
  show FollowsAt c lastByte
    (if c.window.rest = [] then none else some (⟨c.pos, c.pos + 1⟩, c.window.drop 1))
  cases hrest : c.window.rest with
  | nil => exact .of_none (by simp [lastByte, next, Bind.bind, hrun, hrest])
  | cons b bs =>
    have hpos : (c.window.drop 1).pos = c.pos + 1 := by simp [drop, hrest]
    have hdifference : Checked.difference (c.pos + 1) 1 = .ok c.pos :=
      if_pos (Nat.le_add_left 1 c.pos)
    rw [if_neg (List.cons_ne_nil b bs)]
    refine .of_le ?_ (drop_le _ 1)
    simp [lastByte, next, here, lift, Bind.bind, Pure.pure, hrun, hrest, hpos, hdifference,
      Except.map]

theorem follows_headerValue : Follows headerValue fun w => some (gatherLine none w) := by
  refine Follows.loop (g := fun value w => some (gatherLine value w)) (fun value =>
    follows_eatBreak.ifFound
      (fun _ => follows_lineBreak.ifFound (fun _ => follows_pure (.inl value))
        ((follows_accept isSpace).ifFound (fun _ => follows_pure (.inr value))
          (follows_pure (.inl value))))
      ((follows_accept isSpace).ifFound (fun _ => follows_pure (.inr value))
        (follows_lastByte.ifFound (fun last =>
          follows_pure (.inr (some (value.elim last fun s => ⟨s.start, last.stop⟩))))
          (follows_pure (.inl value))))) (fun value w => ?_) none
  -- A line break ends the value unless white space comes after it; white space and other bytes go
  -- on, and the other bytes are gathered.
  cases hbreak : w.afterBreak? with
  | some v =>
    have hline := gatherLine_of_break value hbreak
    have hvw := afterBreak?_lt hbreak
    cases hlength : breakLength? v.rest with
    | some n => simp [Follows.Round, afterBreak?, hlength, hline]
    | none =>
      by_cases hspace : v.rest.head?.any isSpace = true
      · have hlt := Window.lt_of_le_of_lt (drop_le v 1) hvw
        simp [Follows.Round, afterBreak?, hlength, hspace, hline, hlt]
      · rw [Bool.not_eq_true] at hspace
        simp [Follows.Round, afterBreak?, hlength, hspace, hline]
  | none =>
    by_cases hspace : w.rest.head?.any isSpace = true
    · obtain ⟨hlt, hline⟩ := gatherLine_of_space value hbreak hspace
      simp [Follows.Round, hspace, hlt, hline]
    · cases hrest : w.rest with
      | nil => simp [Follows.Round, gatherLine_nil hrest]
      | cons b bs =>
        have hb : isSpace b = false := by simpa [hrest] using hspace
        have hextend : (value.elim ⟨w.pos, w.pos + 1⟩ fun s => ⟨s.start, w.pos + 1⟩) =
            extend value w.pos := by cases value <;> rfl
        have hlt := drop_one_lt hrest
        simp [Follows.Round, hb, hlt, hextend, gatherLine_cons hrest hb]

end Scan

end Recognition.Http
