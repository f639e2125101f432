import Mathlib.Data.List.TakeWhile
import Recognition.Http.Reader

namespace Recognition.Http

namespace Window

variable {u v w : Window} {p : UInt8 → Bool} {b : UInt8} {n : Nat}

theorem pos_le (h : v ≤ w) : w.pos ≤ v.pos := by
  obtain ⟨n, _, rfl⟩ := h
  exact Nat.le_add_right _ _

theorem eat?_pos {b : UInt8} (h : w.eat? b = some v) : v.pos = w.pos + 1 := by
  rw [eat?] at h
  split at h
  · rename_i hhead
    obtain rfl := Option.some.inj h
    cases hrest : w.rest with
    | nil => simp [hrest] at hhead
    | cons => simp [drop, hrest]
  · cases h

theorem take_count (p : UInt8 → Bool) (w : Window) :
    w.rest.take (w.count p) = w.rest.takeWhile p :=
  (List.prefix_iff_eq_take.1 (List.takeWhile_prefix p)).symm

theorem skip_rest (p : UInt8 → Bool) (w : Window) : (w.skip p).rest = w.rest.dropWhile p := by
  have hsplit : w.rest.takeWhile p ++ (w.skip p).rest =
      w.rest.takeWhile p ++ w.rest.dropWhile p := by
    rw [← take_count, skip, drop, List.take_append_drop, take_count,
      List.takeWhile_append_dropWhile]
  exact List.append_cancel_left hsplit

theorem skip_pos (p : UInt8 → Bool) (w : Window) : (w.skip p).pos = w.pos + w.count p := by
  simp only [skip, drop, Nat.min_eq_left (count_le p w)]

theorem cut_drop (pos : Nat) (bytes : List UInt8) (hn : n ≤ (cut pos bytes).rest.length) :
    (cut pos bytes).drop n = cut (pos + n) (bytes.drop n) := by
  induction n generalizing pos bytes with
  | zero => simp [drop]
  | succ n ih =>
    cases bytes with
    | nil => simp [cut] at hn
    | cons b bs =>
      by_cases hb : b = 0
      · simp [cut, hb] at hn
      · have hrest : (cut pos (b :: bs)).drop 1 = cut (pos + 1) bs := by simp [cut, drop, hb]
        have hlength : n ≤ (cut (pos + 1) bs).rest.length := by
          rw [← hrest, drop, List.length_drop]
          omega
        rw [Nat.add_comm n 1, ← drop_drop, hrest, ih _ _ hlength, Nat.add_assoc,
          Nat.add_comm 1 n, List.drop_succ_cons]

theorem eq_of_le {text : List UInt8} {start : Nat} {stop : Option Nat}
    (h : v ≤ .of text start stop) : v = .of text v.pos stop := by
  obtain ⟨n, hn, rfl⟩ := h
  have hdrop := cut_drop start ((upTo text stop).drop start) hn
  rw [List.drop_drop] at hdrop
  have hpos : ((of text start stop).drop n).pos = start + n := by
    rw [of, hdrop]
    rfl
  rw [hpos]
  exact hdrop

theorem eq_false_of_head?_skip (h : (w.skip p).rest.head? = some b) : p b = false := by
  have hhead := List.head?_dropWhile_not p w.rest
  rw [← skip_rest, h] at hhead
  exact hhead

theorem drop_zero (w : Window) : w.drop 0 = w := by simp [drop]

theorem skip_of_not_any (h : w.rest.head?.any p = false) : w.skip p = w := by
  have hcount : w.count p = 0 := by
    rw [count]
    cases hrest : w.rest with
    | nil => rfl
    | cons b bs => simp [List.takeWhile_cons_of_neg (by simpa [hrest] using h : ¬ p b = true)]
  rw [skip, hcount, drop_zero]

theorem drop_one_lt {bs : List UInt8} (h : w.rest = b :: bs) : w.drop 1 < w :=
  ⟨1, Nat.one_pos, by simp [h], rfl⟩

theorem skip_of_any (h : w.rest.head?.any p = true) :
    w.drop 1 < w ∧ w.skip p = (w.drop 1).skip p := by
  cases hrest : w.rest with
  | nil => simp [hrest] at h
  | cons b bs =>
    have hb : p b = true := by simpa [hrest] using h
    have hcount : w.count p = 1 + (w.drop 1).count p := by
      simp [count, drop, hrest, List.takeWhile_cons_of_pos hb, Nat.add_comm]
    refine ⟨drop_one_lt hrest, ?_⟩
    rw [skip, skip, hcount, drop_drop]

theorem eat?_eq_some : w.eat? b = some v ↔ w.rest.head? = some b ∧ v = w.drop 1 := by
  rw [eat?]
  split <;> simp_all [eq_comm]

theorem eat?_eq_none : w.eat? b = none ↔ w.rest.head? ≠ some b := by
  rw [eat?]
  split <;> simp_all

theorem run?_eq_none : w.run? p = none ↔ ∀ b, w.rest.head? = some b → p b = false := by
  rw [run?, count]
  cases w.rest with
  | nil => simp
  | cons b bs => cases hb : p b <;> simp [hb]

theorem exists_eat?_skip (h : w.count p ≠ 0) :
    ∃ u b, u ≤ w ∧ p b = true ∧ u.eat? b = some (w.skip p) := by
  have hcount := count_le p w
  have hlast : w.count p - 1 < w.rest.length := by omega
  refine ⟨w.drop (w.count p - 1), w.rest[w.count p - 1], drop_le w _, ?_, ?_⟩
  · have hmem : w.rest[w.count p - 1] ∈ w.rest.take (w.count p) :=
      List.mem_take_iff_getElem.2 ⟨w.count p - 1, by omega, rfl⟩
    rw [take_count] at hmem
    exact List.mem_takeWhile_imp hmem
  · have hsum : w.count p - 1 + 1 = w.count p := by omega
    rw [eat?_eq_some, drop_drop, hsum]
    exact ⟨by simp [drop, hlast], rfl⟩

variable {text : List UInt8} {start i : Nat} {stop : Option Nat}

/-- Where a text ends that is read from `start` on: at the first NUL before the bound, or else at
the bound. -/
def endOf (text : List UInt8) (start : Nat) (stop : Option Nat) : Nat :=
  match ((upTo text stop).drop start).findIdx? (· == 0) with
  | some i => start + i
  | none => (upTo text stop).length

def bytesOf (text : List UInt8) (start : Nat) (stop : Option Nat) : List UInt8 :=
  (text.take (endOf text start stop)).drop start

theorem upTo_eq_take (text : List UInt8) (stop : Option Nat) :
    upTo text stop = text.take (upTo text stop).length := by
  cases stop with
  | none => exact List.take_length.symm
  | some e => rw [upTo, List.length_take, ← List.take_eq_take_min]

theorem of_eq (text : List UInt8) (start : Nat) (stop : Option Nat) :
    of text start stop = ⟨start, bytesOf text start stop⟩ := by
  have hnul : (fun b : UInt8 => !decide (b ≠ 0)) = (· == 0) := by
    funext b
    rw [Bool.beq_eq_decide_eq]
    simp
  rw [of, cut, List.takeWhile_eq_take_findIdx_not, hnul, bytesOf, endOf]
  split
  · rename_i i hi
    obtain ⟨hlt, hidx⟩ := List.findIdx?_eq_some_iff_findIdx_eq.1 hi
    have hle : start + i ≤ (upTo text stop).length := by
      rw [List.length_drop] at hlt
      omega
    rw [hidx, List.drop_take, Nat.add_sub_cancel_left, upTo_eq_take, List.drop_take, List.take_take,
      Nat.min_eq_left (Nat.le_sub_of_add_le (Nat.add_comm start i ▸ hle))]
  · rename_i hnone
    rw [List.findIdx?_eq_none_iff_findIdx_eq.1 hnone, List.take_length, ← upTo_eq_take]

theorem endOf_le (text : List UInt8) (start : Nat) (stop : Option Nat) :
    endOf text start stop ≤ (upTo text stop).length := by
  rw [endOf]
  split
  · rename_i i hi
    obtain ⟨hlt, _⟩ := List.findIdx?_eq_some_iff_findIdx_eq.1 hi
    rw [List.length_drop] at hlt
    omega
  · exact Nat.le_refl _

theorem length_bytesOf (text : List UInt8) (start : Nat) (stop : Option Nat) :
    (bytesOf text start stop).length = endOf text start stop - start := by
  have hle := endOf_le text start stop
  have hlength := congrArg List.length (upTo_eq_take text stop)
  rw [List.length_take] at hlength
  rw [bytesOf, List.length_drop, List.length_take]
  omega

theorem getElem?_of_rest (stop : Option Nat) (h : (of text start stop).rest[i]? = some b) :
    text[start + i]? = some b := by
  obtain ⟨hi, rfl⟩ := List.getElem?_eq_some_iff.1 h
  have hprefix : (of text start stop).rest <+: (upTo text stop).drop start :=
    List.takeWhile_prefix _
  have hdrop := List.prefix_iff_getElem?.1 hprefix i hi
  rw [List.getElem?_drop] at hdrop
  cases stop with
  | none => exact hdrop
  | some e =>
    rw [upTo, List.getElem?_take] at hdrop
    split at hdrop
    · exact hdrop
    · cases hdrop

theorem exists_getElem?_of_lt_skip (hw : w ≤ of text start stop) (hle : w.pos ≤ i)
    (hlt : i < (w.skip p).pos) : ∃ b, text[i]? = some b ∧ p b = true := by
  obtain ⟨k, rfl⟩ := Nat.exists_eq_add_of_le hle
  have hk : k < (w.rest.takeWhile p).length := by
    rw [skip_pos] at hlt
    exact Nat.lt_of_add_lt_add_left hlt
  refine ⟨(w.rest.takeWhile p)[k], ?_, List.mem_takeWhile_imp (List.getElem_mem hk)⟩
  apply getElem?_of_rest stop
  rw [← eq_of_le hw]
  exact List.prefix_iff_getElem?.1 (List.takeWhile_prefix p) k hk

theorem getElem?_of_eat? (hu : u ≤ of text start stop) (h : u.eat? b = some v) :
    text[v.pos - 1]? = some b := by
  obtain ⟨hhead, rfl⟩ := eat?_eq_some.1 h
  have hlength : u.rest ≠ [] := by
    rintro hnil
    simp [hnil] at hhead
  have hpos : (u.drop 1).pos - 1 = u.pos + 0 := by
    have := List.length_pos_iff.2 hlength
    simp only [drop]
    omega
  rw [hpos]
  refine getElem?_of_rest stop ?_
  rw [← eq_of_le hu, ← List.head?_eq_getElem?]
  exact hhead

end Window

namespace Reader

variable {α : Type}

theorem read_of_nil (r : Reader α) {w : Window} (h : w.rest = []) : r.read w = none := by
  cases hread : r.read w with
  | none => rfl
  | some x =>
    have hlt := Window.length_lt (r.lt hread)
    simp [h] at hlt

theorem read_many (r : Reader α) (w : Window) : r.read (r.many w).2 = none := by
  fun_induction r.many w with
  | case1 w h => exact h
  | case2 w a v h rest ih => exact ih

theorem many_cases (r : Reader α) (w : Window) :
    r.many w = ([], w) ∨ ∃ u a, u ≤ w ∧ r.read u = some (a, (r.many w).2) := by
  fun_induction r.many w with
  | case1 w h => exact .inl rfl
  | case2 w a v h rest ih =>
    right
    rcases ih with hstop | ⟨u, a', hu, hread⟩
    · exact ⟨w, a, Window.le_refl w, by simp [h, rest, hstop]⟩
    · exact ⟨u, a', Window.le_trans hu (Window.le_of_lt (r.lt h)), hread⟩

end Reader

end Recognition.Http
