import Recognition.Proofs.Payment.Checksum
import Recognition.Sgml.Reference

namespace Recognition.Sgml

open Payment

variable {radix m n d : Nat} {c : Char} {digits : List Char}

section Digits

def digitChars : List Char :=
  ['0', '1', '2', '3', '4', '5', '6', '7', '8', '9', 'a', 'b', 'c', 'd', 'e', 'f']

/-- The value of a digit, a letter being small or capital, and 16 for what is no digit. -/
def digitValue (c : Char) : Nat := digitChars.idxOf c.toLower

/-- Digits, at least one, that write `n` by their places. -/
structure Writes (radix : Nat) (digits : List Char) (n : Nat) : Prop where
  ne_nil : digits ≠ []
  lt_radix : ∀ d ∈ digits, digitValue d < radix
  value : Nat.ofDigits radix (digits.map digitValue).reverse = n

theorem all_digit?_ascii : (List.range 0x80).all (fun n =>
    digit? 16 (Char.ofNat n) = some (digitValue (Char.ofNat n)) ∨
      digit? 16 (Char.ofNat n) = none ∧ digitValue (Char.ofNat n) = 16) = true := by
  decide +kernel

theorem digitChars_ascii : digitChars.all (·.toNat < 0x80) = true := by decide

theorem toLower_of_not_ascii (h : 0x80 ≤ c.toNat) : c.toLower = c := by
  have hupper : ¬ (c.val ≥ 'A'.val ∧ c.val ≤ 'Z'.val) := by
    rintro ⟨-, hle⟩
    have hle' : c.toNat ≤ 90 := UInt32.le_iff_toNat_le.1 hle
    omega
  exact dif_neg hupper

theorem digit?_sixteen (c : Char) :
    digit? 16 c = some (digitValue c) ∨ digit? 16 c = none ∧ digitValue c = 16 := by
  by_cases hascii : c.toNat < 0x80
  · have h := List.all_eq_true.1 all_digit?_ascii c.toNat (List.mem_range.2 hascii)
    rwa [Char.ofNat_toNat, decide_eq_true_eq] at h
  · right
    have hnot : c ∉ digitChars := by
      intro hmem
      exact hascii (by simpa using List.all_eq_true.1 digitChars_ascii c hmem)
    constructor
    · simp only [digit?, Char.reduceToNat]
      split_ifs <;> first | rfl | omega
    · rw [digitValue, toLower_of_not_ascii (Nat.le_of_not_lt hascii), List.idxOf_eq_length hnot]
      rfl

theorem lt_of_digit? (h : digit? radix c = some d) : d < radix := by
  grind [digit?]

theorem digit?_eq_filter (h : radix ≤ 16) (c : Char) :
    digit? radix c = (digit? 16 c).filter (· < radix) := by
  simp only [digit?, Char.reduceToNat]
  split_ifs <;> grind

theorem digit?_eq_some_iff (h : radix ≤ 16) :
    digit? radix c = some d ↔ digitValue c < radix ∧ digitValue c = d := by
  rw [digit?_eq_filter h]
  rcases digit?_sixteen c with hvalue | ⟨hnone, hvalue⟩
  · rw [hvalue]
    simp [Option.filter_some]
  · rw [hnone, hvalue]
    simp
    omega

theorem numberFrom?_eq_some_iff (h : radix ≤ 16) :
    numberFrom? radix m digits = some n ↔ (∀ d ∈ digits, digitValue d < radix) ∧
      digits.foldl (fun n d => n * radix + digitValue d) m = n := by
  induction digits generalizing m with
  | nil => simp [numberFrom?]
  | cons c digits ih =>
    rw [numberFrom?, List.forall_mem_cons, List.foldl_cons, Option.bind_eq_some_iff]
    simp only [digit?_eq_some_iff h, ih]
    constructor
    · rintro ⟨d, ⟨hlt, rfl⟩, hdigits, hn⟩
      exact ⟨⟨hlt, hdigits⟩, hn⟩
    · rintro ⟨⟨hlt, hdigits⟩, hn⟩
      exact ⟨digitValue c, ⟨hlt, rfl⟩, hdigits, hn⟩

theorem foldl_eq_ofDigits (radix : Nat) (digits : List Char) :
    digits.foldl (fun n d => n * radix + digitValue d) 0 =
      Nat.ofDigits radix (digits.map digitValue).reverse := by
  rw [Nat.ofDigits_eq_foldr, List.foldr_reverse, List.foldl_map]
  congr 1
  funext n d
  rw [Nat.cast_id]
  ring

theorem number?_eq_some_iff (h : radix ≤ 16) :
    number? radix digits = some n ↔ Writes radix digits n := by
  rw [number?]
  split
  · rename_i hnil
    constructor
    · intro hnone
      cases hnone
    · intro hwrites
      exact absurd (List.isEmpty_iff.1 hnil) hwrites.ne_nil
  · rename_i hne
    rw [numberFrom?_eq_some_iff h, foldl_eq_ofDigits]
    constructor
    · rintro ⟨hlt, hn⟩
      exact ⟨by simpa using hne, hlt, hn⟩
    · rintro ⟨-, hlt, hn⟩
      exact ⟨hlt, hn⟩

end Digits

section Words

def wordStep? (radix n : UInt32) (c : Char) : Option UInt32 := do
  let value ← digit? radix.toNat c
  let product ← wordMul? n radix
  wordAdd? product (.ofNat value)

def wordNumber? (radix : UInt32) (digits : List Char) : Option UInt32 :=
  if digits.isEmpty then none else digits.foldlM (wordStep? radix) 0

def wordScalar? (w : UInt32) : Option Char :=
  if h : w.isValidChar then (some (Char.mk w h)).filter (· ≠ '\x00') else none

def wordNumbered? : List Char → Option Char
  | 'x' :: hex | 'X' :: hex => (wordNumber? 16 hex).bind wordScalar?
  | decimal => (wordNumber? 10 decimal).bind wordScalar?

def wordMeaning? : List Char → Option (List Char)
  | '#' :: number => (wordNumbered? number).map ([·])
  | name => scalarsOf? name

theorem word?_toNat (w : UInt32) : word? w.toNat = some w := by
  rw [word?, if_pos w.toNat_lt_size, UInt32.ofNat_toNat]

theorem word?_of_le (h : UInt32.size ≤ n) : word? n = none := if_neg (Nat.not_lt.2 h)

theorem le_of_numberFrom? (hradix : 0 < radix) (h : numberFrom? radix m digits = some n) :
    m ≤ n := by
  induction digits generalizing m with
  | nil => exact Nat.le_of_eq (Option.some.inj h)
  | cons c digits ih =>
    rw [numberFrom?] at h
    obtain ⟨d, -, hn⟩ := Option.bind_eq_some_iff.1 h
    calc m ≤ m * radix := Nat.le_mul_of_pos_right m hradix
      _ ≤ m * radix + d := Nat.le_add_right _ _
      _ ≤ n := ih hn

theorem numberFrom?_bind_word?_of_le (hradix : 0 < radix) (h : UInt32.size ≤ m) :
    (numberFrom? radix m digits).bind word? = none := by
  cases hn : numberFrom? radix m digits with
  | none => rfl
  | some n => exact word?_of_le (Nat.le_trans h (le_of_numberFrom? hradix hn))

theorem wordStep?_eq {radix n : UInt32} (hd : digit? radix.toNat c = some d) :
    wordStep? radix n c = word? (n.toNat * radix.toNat + d) := by
  have hsize : d < UInt32.size := Nat.lt_trans (lt_of_digit? hd) radix.toNat_lt_size
  have hvalue : (UInt32.ofNat d).toNat = d := UInt32.toNat_ofNat_of_lt hsize
  rw [wordStep?, hd]
  rcases Nat.lt_or_ge (n.toNat * radix.toNat) UInt32.size with hlt | hge
  · obtain ⟨w, hw, hn⟩ := word?_of_lt hlt
    simp only [wordMul?, wordAdd?, hw, hn, hvalue, Option.bind_eq_bind, Option.bind_some]
  · rw [word?_of_le (Nat.le_trans hge (Nat.le_add_right _ _))]
    simp [wordMul?, word?_of_le hge]

/-- The checks along the way find exactly the overflow of the number itself. -/
theorem foldlM_wordStep? {radix : UInt32} (hradix : 0 < radix.toNat) (n : UInt32)
    (digits : List Char) :
    digits.foldlM (wordStep? radix) n =
      (numberFrom? radix.toNat n.toNat digits).bind word? := by
  induction digits generalizing n with
  | nil => exact (word?_toNat n).symm
  | cons c digits ih =>
    rw [List.foldlM_cons, numberFrom?]
    cases hd : digit? radix.toNat c with
    | none => simp [wordStep?, hd]
    | some d =>
      rw [wordStep?_eq hd, Option.bind_some]
      rcases Nat.lt_or_ge (n.toNat * radix.toNat + d) UInt32.size with hlt | hge
      · obtain ⟨w, hw, hn⟩ := word?_of_lt hlt
        rw [hw, ← hn]
        exact ih w
      · rw [word?_of_le hge, numberFrom?_bind_word?_of_le hradix hge]
        rfl

theorem wordNumber?_eq {radix : UInt32} (hradix : 0 < radix.toNat) (digits : List Char) :
    wordNumber? radix digits = (number? radix.toNat digits).bind word? := by
  unfold wordNumber? number?
  split
  · rfl
  · exact foldlM_wordStep? hradix 0 digits

theorem word?_bind_wordScalar? (n : Nat) : (word? n).bind wordScalar? = scalar? n := by
  rcases Nat.lt_or_ge n UInt32.size with hlt | hge
  · obtain ⟨w, hw, rfl⟩ := word?_of_lt hlt
    rw [hw, Option.bind_some]
    ext c
    rw [scalar?_eq_some_iff, wordScalar?]
    split
    · rename_i hvalid
      have htoNat : w.toNat = (Char.mk w hvalid).toNat := rfl
      rw [Option.filter_eq_some_iff, htoNat, Char.toNat_inj, Option.some_inj, decide_eq_true_eq,
        and_comm, eq_comm (a := c)]
    · rename_i hvalid
      constructor
      · intro h
        cases h
      · rintro ⟨-, hn⟩
        have hc : c.toNat.isValidChar := c.valid
        rw [hn] at hc
        exact absurd hc hvalid
  · have hvalid : ¬ n.isValidChar := by
      have hsize : UInt32.size = 4294967296 := rfl
      unfold Nat.isValidChar
      omega
    rw [word?_of_le hge, scalar?, if_neg (fun h => hvalid h.1)]
    rfl

theorem wordNumbered?_eq (number : List Char) : wordNumbered? number = numbered? number := by
  have hread (radix : UInt32) (hradix : 0 < radix.toNat) (digits : List Char) :
      (wordNumber? radix digits).bind wordScalar? =
        (number? radix.toNat digits).bind scalar? := by
    rw [wordNumber?_eq hradix, Option.bind_assoc]
    congr 1
    funext n
    exact word?_bind_wordScalar? n
  unfold wordNumbered?
  split
  · exact hread 16 (by decide) _
  · exact hread 16 (by decide) _
  · rw [numbered?]
    · exact hread 10 (by decide) number
    · assumption
    · assumption

theorem wordMeaning?_eq (body : List Char) : wordMeaning? body = meaning? body := by
  unfold wordMeaning?
  split
  · rw [wordNumbered?_eq, meaning?]
  · rw [meaning?]
    assumption

end Words

end Recognition.Sgml
