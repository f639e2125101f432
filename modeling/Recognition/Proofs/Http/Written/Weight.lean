import Recognition.Proofs.Http.Shift
import Recognition.Proofs.Http.Written.Window

namespace Recognition.Http

def isNumeral (b : UInt8) : Bool := isDigit b || b == Byte.dot

namespace Window

variable {p : UInt8 → Bool} {b : UInt8} {w : Window} {xs rest : List UInt8}

def append (w : Window) (rest : List UInt8) : Window := ⟨w.pos, w.rest ++ rest⟩

theorem takeWhile_append_of_stops (hrest : Stops p rest) :
    (xs ++ rest).takeWhile p = xs.takeWhile p := by
  induction xs with
  | nil => exact hrest.takeWhile
  | cons b bs ih => rw [List.cons_append, List.takeWhile_cons, List.takeWhile_cons, ih]

theorem dropWhile_append_of_stops (hrest : Stops p rest) :
    (xs ++ rest).dropWhile p = xs.dropWhile p ++ rest := by
  induction xs with
  | nil => exact hrest.dropWhile
  | cons b bs ih =>
    rw [List.cons_append, List.dropWhile_cons, List.dropWhile_cons, ih]
    split <;> rfl

theorem skip_append_of_stops (hrest : Stops p rest) :
    (w.append rest).skip p = (w.skip p).append rest := by
  have hpos : ((w.append rest).skip p).pos = (w.skip p).pos := by
    rw [skip_pos, skip_pos, count, count]
    exact congrArg (w.pos + List.length ·) (takeWhile_append_of_stops hrest)
  have hbytes : ((w.append rest).skip p).rest = (w.skip p).rest ++ rest := by
    rw [skip_rest, skip_rest]
    exact dropWhile_append_of_stops hrest
  exact congrArg₂ Window.mk hpos hbytes

theorem eat?_append_of_stops (hp : p b = true) (hrest : Stops p rest) :
    (w.append rest).eat? b = (w.eat? b).map (·.append rest) := by
  obtain ⟨pos, bytes⟩ := w
  cases bytes with
  | nil =>
    have hnone : (⟨pos, []⟩ : Window).eat? b = none := eat?_eq_none.2 (by simp)
    rw [hnone]
    exact eat?_of_stops hp hrest
  | cons c bytes =>
    by_cases hc : c = b
    · subst hc
      rw [eat?_cons]
      exact eat?_cons pos c (bytes ++ rest)
    · have hnone : ∀ tail, (⟨pos, c :: tail⟩ : Window).eat? b = none := by
        intro tail
        exact eat?_eq_none.2 (by simpa using hc)
      rw [hnone]
      exact hnone (bytes ++ rest)

end Window

open Window

namespace Weight

variable {w : Window} {rest : List UInt8}

theorem stops_isDigit (hrest : Stops isNumeral rest) : Stops isDigit rest :=
  hrest.mono fun b hb => by simp [isNumeral, hb]

theorem readFraction_append (hrest : Stops isNumeral rest) :
    readFraction (w.append rest) = ((readFraction w).1, (readFraction w).2.append rest) := by
  have hdigit := stops_isDigit hrest
  rw [readFraction, readFraction, eat?_append_of_stops (by decide) hrest]
  cases w.eat? Byte.dot with
  | none => rfl
  | some v =>
    simp only [Option.map_some, skip_append_of_stops hdigit]
    exact congrArg (·, (v.skip isDigit).append rest) (takeWhile_append_of_stops hdigit)

theorem read_append (hrest : Stops isNumeral rest) :
    weight.read (w.append rest) = (weight.read w).map fun (a, v) => (a, v.append rest) := by
  have hdigit := stops_isDigit hrest
  have hwhole : (w.append rest).rest.takeWhile isDigit = w.rest.takeWhile isDigit :=
    takeWhile_append_of_stops hdigit
  simp only [weight, hwhole, skip_append_of_stops hdigit, readFraction_append hrest]
  split
  · rfl
  · rw [Option.map_map]
    rfl

theorem read_within {xs : List UInt8} (pos : Nat) (hrest : Stops isNumeral rest) :
    weight.read ⟨pos, xs ++ rest⟩ =
      (weight.read ⟨0, xs⟩).map fun (a, v) => (a, (v.shift pos).append rest) := by
  have hshift := shifts_weight.read pos ⟨0, xs⟩
  have happend := read_append (w := ⟨pos, xs⟩) hrest
  rw [shift, Nat.zero_add] at hshift
  rw [hshift, Option.map_map] at happend
  exact happend

end Weight

/-- What a weight is made of by its delimiters alone: digits, perhaps none, and the digits after a
point, if one comes next. -/
structure WeightRuns where
  whole : List UInt8
  fraction : Option (List UInt8)
  whole_digits : ∀ d ∈ whole, isDigit d = true
  fraction_digits : ∀ ds ∈ fraction, ∀ d ∈ ds, isDigit d = true

namespace WeightRuns

variable {rest : List UInt8}

def bytes (r : WeightRuns) : List UInt8 := r.whole ++ r.fraction.elim [] (Byte.dot :: ·)

/-- No digit goes on with the last ones, and no point with the only ones. -/
def EndsBefore (r : WeightRuns) (rest : List UInt8) : Prop :=
  Stops isDigit rest ∧ (r.fraction = none → rest.head? ≠ some Byte.dot)

theorem exists_eq_append (bytes : List UInt8) :
    ∃ (r : WeightRuns) (rest : List UInt8), bytes = r.bytes ++ rest ∧ r.EndsBefore rest := by
  obtain ⟨whole, after, rfl, hwhole, hafter⟩ := Stops.exists_append isDigit bytes
  by_cases hdot : after.head? = some Byte.dot
  · obtain ⟨later, rfl⟩ := List.head?_eq_some_iff.1 hdot
    obtain ⟨fraction, rest, rfl, hfraction, hrest⟩ := Stops.exists_append isDigit later
    refine ⟨⟨whole, some fraction, hwhole, by simpa using hfraction⟩, rest, ?_, hrest, by simp⟩
    simp [WeightRuns.bytes]
  · exact ⟨⟨whole, none, hwhole, by simp⟩, after, by simp [WeightRuns.bytes], hafter, fun _ => hdot⟩

theorem readFraction_eq (r : WeightRuns) (hrest : r.EndsBefore rest) (pos : Nat) :
    Weight.readFraction ⟨pos, r.fraction.elim [] (Byte.dot :: ·) ++ rest⟩ =
      (r.fraction.getD [], ⟨pos + (r.fraction.elim [] (Byte.dot :: ·)).length, rest⟩) := by
  cases hr : r.fraction with
  | none =>
    have hnone : (⟨pos, rest⟩ : Window).eat? Byte.dot = none := eat?_eq_none.2 (hrest.2 hr)
    simp [Weight.readFraction, hnone]
  | some ds =>
    have hds := r.fraction_digits ds hr
    simp only [Option.elim_some, List.cons_append, Weight.readFraction, eat?_cons,
      takeWhile_append_of_stops hrest.1, List.takeWhile_eq_self_iff.2 hds, skip_append hds hrest.1,
      Option.getD_some, List.length_cons, Nat.add_assoc, Nat.add_comm 1]

/-- Digits are read as a number of thousandths, whatever comes after them. -/
theorem read_eq (r : WeightRuns) (hrest : r.EndsBefore rest) (pos : Nat) :
    weight.read ⟨pos, r.bytes ++ rest⟩ =
      if r.whole = [] ∧ r.fraction.getD [] = [] then none
      else
        (Weight.ofMillis? (decimal r.whole * 1000 + Weight.thousandths (r.fraction.getD []))).map
          fun a => (a, ⟨pos + r.bytes.length, rest⟩) := by
  have hpoint : Stops isDigit (r.fraction.elim [] (Byte.dot :: ·) ++ rest) := by
    cases r.fraction with
    | none => exact hrest.1
    | some ds => exact Stops.cons_iff.2 (by decide)
  simp only [weight, bytes, List.append_assoc, takeWhile_append_of_stops hpoint,
    List.takeWhile_eq_self_iff.2 r.whole_digits, skip_append r.whole_digits hpoint,
    r.readFraction_eq hrest, List.length_append, Nat.add_assoc]

end WeightRuns

namespace Weight

variable {pos : Nat} {rest whole : List UInt8} {fraction : Option (List UInt8)}

theorem read_number (hne : whole ≠ []) (hwhole : ∀ d ∈ whole, isDigit d = true)
    (hfraction : ∀ ds ∈ fraction, ∀ d ∈ ds, isDigit d = true) (hrest : Stops isNumeral rest) :
    weight.read ⟨pos, whole ++ (fraction.elim [] (Byte.dot :: ·) ++ rest)⟩ =
      (ofMillis? (decimal whole * 1000 + thousandths (fraction.getD []))).map fun a =>
        (a, ⟨pos + (whole ++ fraction.elim [] (Byte.dot :: ·)).length, rest⟩) := by
  let r : WeightRuns := ⟨whole, fraction, hwhole, hfraction⟩
  have hends : r.EndsBefore rest := ⟨stops_isDigit hrest, fun _ => hrest.head?_ne (by decide)⟩
  have hread := r.read_eq hends pos
  rw [if_neg fun h => hne h.1] at hread
  simpa [WeightRuns.bytes, r] using hread

def digitByte (k : Nat) : UInt8 := UInt8.ofNat (0x30 + k % 10)

theorem digit_spec (k : Nat) :
    String.utf8EncodeChar (Char.ofNat ('0'.toNat + k % 10)) = [digitByte k] ∧
      (Char.ofNat ('0'.toNat + k % 10) = '0' ↔ k % 10 = 0) ∧
      isDigit (digitByte k) = true ∧ (digitByte k).toNat - 0x30 = k % 10 := by
  have hten : ∀ d < 10,
      String.utf8EncodeChar (Char.ofNat ('0'.toNat + d)) = [UInt8.ofNat (0x30 + d)] ∧
      (Char.ofNat ('0'.toNat + d) = '0' ↔ d = 0) ∧
      isDigit (UInt8.ofNat (0x30 + d)) = true ∧ (UInt8.ofNat (0x30 + d)).toNat - 0x30 = d := by
    decide
  exact hten _ (Nat.mod_lt k (by decide))

theorem bytes_digit (k : Nat) (cs : List Char) :
    Utf8.bytes (Char.ofNat ('0'.toNat + k % 10) :: cs) = digitByte k :: Utf8.bytes cs := by
  rw [Utf8.bytes, List.flatMap_cons, (digit_spec k).1]
  rfl

theorem bytes_decimals (m : Nat) : Utf8.bytes (decimals m) =
    if m % 10 ≠ 0 then [digitByte (m / 100), digitByte (m / 10), digitByte m]
    else if m / 10 % 10 ≠ 0 then [digitByte (m / 100), digitByte (m / 10)]
    else if m / 100 % 10 ≠ 0 then [digitByte (m / 100)]
    else [] := by
  simp only [decimals, List.reverse_cons, List.reverse_nil, List.nil_append, List.cons_append,
    List.dropWhile_cons, List.dropWhile_nil, (digit_spec _).2.1, decide_eq_true_eq, ne_eq, ite_not]
  -- The zeros at the end fall away one after the other.
  split
  · split
    · split
      · rfl
      · exact bytes_digit _ _
    · simp only [List.reverse_cons, List.reverse_nil, List.nil_append, List.cons_append,
        bytes_digit]
      rfl
  · simp only [List.reverse_cons, List.reverse_nil, List.nil_append, List.cons_append, bytes_digit]
    rfl

theorem thousandths_decimals {m : Nat} (hm : m < 1000) :
    thousandths (Utf8.bytes (decimals m)) = m := by
  rw [bytes_decimals]
  split_ifs <;> simp only [thousandths, List.zipWith, List.foldr, (digit_spec _).2.2.2] <;> omega

theorem isDigit_decimals (m : Nat) : ∀ d ∈ Utf8.bytes (decimals m), isDigit d = true := by
  rw [bytes_decimals]
  split_ifs <;> simp [(digit_spec _).2.2.1]

def bytes (a : Weight) : List UInt8 := Utf8.bytes a.text

def fractionBytes (a : Weight) : Option (List UInt8) :=
  if decimals (a.millis % 1000) = [] then none else some (Utf8.bytes (decimals (a.millis % 1000)))

theorem bytes_eq (a : Weight) :
    a.bytes = [digitByte (a.millis / 1000)] ++ a.fractionBytes.elim [] (Byte.dot :: ·) := by
  have hwhole : '0'.toNat + a.millis / 1000 = '0'.toNat + a.millis / 1000 % 10 := by
    have hle := a.millis_le
    omega
  simp only [bytes, text, hwhole, fractionBytes]
  cases decimals (a.millis % 1000) with
  | nil => exact bytes_digit (a.millis / 1000) []
  | cons d ds => exact bytes_digit (a.millis / 1000) ('.' :: d :: ds)

theorem thousandths_fractionBytes (a : Weight) :
    thousandths (a.fractionBytes.getD []) = a.millis % 1000 := by
  have hdecimals := thousandths_decimals (Nat.mod_lt a.millis (by decide : 0 < 1000))
  rw [fractionBytes]
  split
  · rename_i hnil
    rw [hnil] at hdecimals
    exact hdecimals
  · exact hdecimals

theorem isDigit_fractionBytes (a : Weight) :
    ∀ ds ∈ a.fractionBytes, ∀ d ∈ ds, isDigit d = true := by
  intro ds hds
  rw [fractionBytes] at hds
  split at hds
  · cases hds
  · obtain rfl := Option.mem_some_iff.1 hds
    exact isDigit_decimals _

theorem isDigit_digitByte (k : Nat) : ∀ d ∈ [digitByte k], isDigit d = true := by
  intro d hd
  obtain rfl := List.mem_singleton.1 hd
  exact (digit_spec k).2.2.1

theorem isNumeral_of_mem (a : Weight) : ∀ b ∈ a.bytes, isNumeral b = true := by
  intro b hb
  rw [bytes_eq, List.mem_append] at hb
  rcases hb with hb | hb
  · simp [isNumeral, isDigit_digitByte _ b hb]
  · cases hfraction : a.fractionBytes with
    | none => simp [hfraction] at hb
    | some ds =>
      rw [hfraction, Option.elim_some, List.mem_cons] at hb
      rcases hb with rfl | hb
      · decide
      · simp [isNumeral, a.isDigit_fractionBytes ds hfraction b hb]

theorem bytes_ne_nil (a : Weight) : a.bytes ≠ [] := by simp [bytes_eq]

theorem reads (a : Weight) : weight.Reads (Stops isNumeral) a.bytes (fun _ => a) := by
  intro pos rest hrest
  have hwhole : decimal [digitByte (a.millis / 1000)] = a.millis / 1000 := by
    have hle := a.millis_le
    have hdigit := (digit_spec (a.millis / 1000)).2.2.2
    simp only [decimal, List.foldl_cons, List.foldl_nil, hdigit]
    omega
  have hmillis : decimal [digitByte (a.millis / 1000)] * 1000 +
      thousandths (a.fractionBytes.getD []) = a.millis := by
    rw [hwhole, thousandths_fractionBytes]
    omega
  rw [bytes_eq, List.append_assoc, read_number (List.cons_ne_nil _ _) (isDigit_digitByte _)
    a.isDigit_fractionBytes hrest, hmillis, ofMillis?, dif_pos a.millis_le, Option.map_some]

end Weight

end Recognition.Http
