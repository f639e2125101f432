import Mathlib.Data.Nat.Digits.Defs
import Recognition.Payment.Checksum

namespace Recognition.Payment

/-- The decimal digits of a digit or a capital, `A` being 10. -/
def decimalDigits (c : Char) : List Nat :=
  if c.isDigit then [c.toNat - '0'.toNat]
  else if c.isUpper then
    let n := c.toNat - 'A'.toNat + 10
    [n / 10, n % 10]
  else []

/-- The number that all the decimal digits write. -/
def decimalNumber (cs : List Char) : Nat := Nat.ofDigits 10 (cs.flatMap decimalDigits).reverse

theorem numeralFrom_eq_foldl (n : Nat) (cs : List Char) :
    numeralFrom n cs = (cs.flatMap decimalDigits).foldl (fun n d => d + 10 * n) n := by
  induction cs generalizing n with
  | nil => rfl
  | cons c cs ih =>
    rw [numeralFrom, List.flatMap_cons, List.foldl_append, decimalDigits]
    split
    · rw [ih, List.foldl_cons, List.foldl_nil]
      congr 1
      omega
    · split
      · rw [ih, List.foldl_cons, List.foldl_cons, List.foldl_nil]
        congr 1
        omega
      · rw [ih, List.foldl_nil]

theorem numeral_eq_decimalNumber (cs : List Char) : numeral cs = decimalNumber cs := by
  rw [decimalNumber, Nat.ofDigits_eq_foldr, List.foldr_reverse]
  exact numeralFrom_eq_foldl 0 cs

theorem remainder97_eq_decimalNumber (cs : List Char) :
    remainder97 cs = decimalNumber cs % 97 := by
  rw [remainder97_eq, numeral_eq_decimalNumber]

section Words

/-- The number as a word of 32 bits, if it fits. -/
def word? (n : Nat) : Option UInt32 := if n < UInt32.size then some (.ofNat n) else none

def wordAdd? (a b : UInt32) : Option UInt32 := word? (a.toNat + b.toNat)

def wordMul? (a b : UInt32) : Option UInt32 := word? (a.toNat * b.toNat)

def wordSub? (a b : UInt32) : Option UInt32 := if b ≤ a then some (a - b) else none

def wordAppend97? (r factor value : UInt32) : Option UInt32 := do
  let product ← wordMul? r factor
  let sum ← wordAdd? product value
  return sum % 97

/-- The remainder by 97 after one character more, kept in a word. There is none if a difference, a
product or a sum is no word. -/
def wordStep97? (r : UInt32) (c : Char) : Option UInt32 :=
  if c.isDigit then do
    let value ← wordSub? c.val '0'.val
    wordAppend97? r 10 value
  else if c.isUpper then do
    let letter ← wordSub? c.val 'A'.val
    let value ← wordAdd? letter 10
    wordAppend97? r 100 value
  else some r

def wordRemainder97? (cs : List Char) : Option UInt32 := cs.foldlM wordStep97? 0

theorem word?_of_lt {n : Nat} (h : n < UInt32.size) : ∃ w, word? n = some w ∧ w.toNat = n :=
  ⟨.ofNat n, if_pos h, UInt32.toNat_ofNat_of_lt h⟩

theorem wordSub?_of_le {a b : UInt32} (h : b.toNat ≤ a.toNat) :
    ∃ w, wordSub? a b = some w ∧ w.toNat = a.toNat - b.toNat :=
  ⟨a - b, if_pos h, UInt32.toNat_sub_of_le _ _ h⟩

theorem wordAppend97?_of_lt {r factor value : UInt32}
    (h : r.toNat * factor.toNat + value.toNat < UInt32.size) :
    ∃ s, wordAppend97? r factor value = some s ∧
      s.toNat = (r.toNat * factor.toNat + value.toNat) % 97 := by
  obtain ⟨product, hproduct, hp⟩ := word?_of_lt (n := r.toNat * factor.toNat) (by omega)
  obtain ⟨sum, hsum, hs⟩ := word?_of_lt (n := product.toNat + value.toNat) (by omega)
  refine ⟨sum % 97, by simp [wordAppend97?, wordMul?, wordAdd?, hproduct, hsum], ?_⟩
  rw [UInt32.toNat_mod, hs, hp]
  rfl

theorem isDigit_iff {c : Char} : c.isDigit = true ↔ 48 ≤ c.toNat ∧ c.toNat ≤ 57 := by
  simp only [Char.isDigit, Bool.and_eq_true, decide_eq_true_eq, UInt32.le_iff_toNat_le]
  rfl

theorem isUpper_iff {c : Char} : c.isUpper = true ↔ 65 ≤ c.toNat ∧ c.toNat ≤ 90 := by
  change decide ('A'.val ≤ c.val ∧ c.val ≤ 'Z'.val) = true ↔ _
  rw [decide_eq_true_eq, UInt32.le_iff_toNat_le, UInt32.le_iff_toNat_le]
  rfl

theorem step97_lt {r : Nat} (hr : r < 97) (c : Char) : step97 r c < 97 := by
  rw [step97]
  split
  · exact Nat.mod_lt _ (by decide)
  · split
    · exact Nat.mod_lt _ (by decide)
    · exact hr

theorem wordStep97?_eq {r : UInt32} (hr : r.toNat < 97) (c : Char) :
    ∃ s, wordStep97? r c = some s ∧ s.toNat = step97 r.toNat c := by
  have hsize : UInt32.size = 4294967296 := rfl
  have hten : UInt32.toNat 10 = 10 := rfl
  have hhundred : UInt32.toNat 100 = 100 := rfl
  have hc : c.val.toNat = c.toNat := rfl
  -- A digit appends one place and a letter two; below 97 neither leaves the word.
  rw [wordStep97?, step97]
  split
  · rename_i hdigit
    have hbounds := isDigit_iff.1 hdigit
    obtain ⟨value, hvalue, hv⟩ := wordSub?_of_le (a := c.val) (b := '0'.val) hbounds.1
    have hzero : '0'.val.toNat = 48 := rfl
    have hlt : r.toNat * UInt32.toNat 10 + value.toNat < UInt32.size := by
      rw [hten]
      omega
    obtain ⟨s, hs, heq⟩ := wordAppend97?_of_lt hlt
    refine ⟨s, ?_, ?_⟩
    · rw [hvalue]
      exact hs
    · rw [heq, hv]
      rfl
  · split
    · rename_i hupper
      have hbounds := isUpper_iff.1 hupper
      obtain ⟨letter, hletter, hl⟩ := wordSub?_of_le (a := c.val) (b := 'A'.val) hbounds.1
      obtain ⟨value, hvalue, hv⟩ := word?_of_lt (n := letter.toNat + UInt32.toNat 10) (by omega)
      have hA : 'A'.val.toNat = 65 := rfl
      have hlt : r.toNat * UInt32.toNat 100 + value.toNat < UInt32.size := by
        rw [hhundred]
        omega
      obtain ⟨s, hs, heq⟩ := wordAppend97?_of_lt hlt
      refine ⟨s, ?_, ?_⟩
      · simp only [hletter, wordAdd?, hvalue, Option.bind_eq_bind, Option.bind_some, hs]
      · rw [heq, hv, hl]
        rfl
    · exact ⟨r, rfl, rfl⟩

theorem foldlM_wordStep97? {r : UInt32} (hr : r.toNat < 97) (cs : List Char) :
    ∃ s, cs.foldlM wordStep97? r = some s ∧ s.toNat = cs.foldl step97 r.toNat := by
  induction cs generalizing r with
  | nil => exact ⟨r, rfl, rfl⟩
  | cons c cs ih =>
    obtain ⟨s, hs, heq⟩ := wordStep97?_eq hr c
    obtain ⟨t, ht, hrest⟩ := ih (heq ▸ step97_lt hr c)
    refine ⟨t, ?_, ?_⟩
    · rw [List.foldlM_cons, hs]
      exact ht
    · rw [hrest, heq, List.foldl_cons]

/-- Words are enough for the remainder of a number of any length. -/
theorem wordRemainder97?_eq (cs : List Char) :
    ∃ r, wordRemainder97? cs = some r ∧ r.toNat = remainder97 cs :=
  foldlM_wordStep97? (r := 0) (by decide) cs

end Words

section Slips

/-- Both are digits, or both are capitals. -/
def SameKind (c d : Char) : Prop :=
  c.isDigit = true ∧ d.isDigit = true ∨ c.isUpper = true ∧ d.isUpper = true

/-- What a slip of the pen makes of a text: it has a digit for a digit or a capital for a capital in
one place, or two that stand together in the wrong order. -/
inductive Slip : List Char → List Char → Prop
  | replaced (as bs : List Char) {c d : Char} (hkind : SameKind c d) (hne : c ≠ d) :
    Slip (as ++ c :: bs) (as ++ d :: bs)
  | swapped (as bs : List Char) {c d : Char} (hkind : SameKind c d) (hne : c ≠ d) :
    Slip (as ++ c :: d :: bs) (as ++ d :: c :: bs)

theorem numeralFrom_append (n : Nat) (as bs : List Char) :
    numeralFrom n (as ++ bs) = numeralFrom (numeralFrom n as) bs := by
  rw [numeralFrom_eq_foldl, numeralFrom_eq_foldl, numeralFrom_eq_foldl, List.flatMap_append,
    List.foldl_append]

/-- What is written after them does not make two numbers alike: 10 and 100 are units modulo 97. -/
theorem mod_eq_of_numeralFrom {m n : Nat} {cs : List Char}
    (h : numeralFrom m cs % 97 = numeralFrom n cs % 97) : m % 97 = n % 97 := by
  induction cs generalizing m n with
  | nil => exact h
  | cons c cs ih =>
    rw [numeralFrom, numeralFrom] at h
    split at h
    · have := ih h
      omega
    · split at h
      · have := ih h
        omega
      · exact ih h

theorem SameKind.exists_places {c d : Char} (h : SameKind c d) (hne : c ≠ d) :
    ∃ k x y, (k = 10 ∨ k = 100) ∧ x < 36 ∧ y < 36 ∧ x ≠ y ∧
      (∀ n cs, numeralFrom n (c :: cs) = numeralFrom (n * k + x) cs) ∧
      ∀ n cs, numeralFrom n (d :: cs) = numeralFrom (n * k + y) cs := by
  have hnat : c.toNat ≠ d.toNat := fun heq => hne (Char.toNat_inj.1 heq)
  have hzero : '0'.toNat = 48 := rfl
  have hA : 'A'.toNat = 65 := rfl
  have not_digit {u : Char} (hu : u.isUpper = true) : ¬ u.isDigit = true := by
    rw [isUpper_iff] at hu
    rw [isDigit_iff]
    omega
  rcases h with ⟨hc, hd⟩ | ⟨hc, hd⟩
  · have hcb := isDigit_iff.1 hc
    have hdb := isDigit_iff.1 hd
    refine ⟨10, c.toNat - '0'.toNat, d.toNat - '0'.toNat, .inl rfl, by omega, by omega, by omega,
      ?_, ?_⟩
    · intro n cs
      rw [numeralFrom, if_pos hc]
    · intro n cs
      rw [numeralFrom, if_pos hd]
  · have hcb := isUpper_iff.1 hc
    have hdb := isUpper_iff.1 hd
    refine ⟨100, c.toNat - 'A'.toNat + 10, d.toNat - 'A'.toNat + 10, .inr rfl, by omega, by omega,
      by omega, ?_, ?_⟩
    · intro n cs
      rw [numeralFrom, if_neg (not_digit hc), if_pos hc]
    · intro n cs
      rw [numeralFrom, if_neg (not_digit hd), if_pos hd]

/-- A slip changes the remainder, whatever stands before and after it. -/
theorem Slip.mod_ne {as bs : List Char} (h : Slip as bs) (n : Nat) (cs : List Char) :
    numeralFrom n (as ++ cs) % 97 ≠ numeralFrom n (bs ++ cs) % 97 := by
  intro heq
  cases h with
  | @replaced as bs c d hkind hne =>
    obtain ⟨k, x, y, hk, hx, hy, hxy, hc, hd⟩ := hkind.exists_places hne
    rw [List.append_assoc, List.append_assoc, List.cons_append, List.cons_append,
      numeralFrom_append, numeralFrom_append n as, hc, hd] at heq
    have hmod := mod_eq_of_numeralFrom heq
    omega
  | @swapped as bs c d hkind hne =>
    obtain ⟨k, x, y, hk, hx, hy, hxy, hc, hd⟩ := hkind.exists_places hne
    rw [List.append_assoc, List.append_assoc, List.cons_append, List.cons_append,
      List.cons_append, List.cons_append, numeralFrom_append, numeralFrom_append n as, hc, hd, hd,
      hc] at heq
    have hmod := mod_eq_of_numeralFrom heq
    -- The difference is 9 or 99 times that of the two values.
    rcases hk with rfl | rfl
    · omega
    · omega

end Slips

end Recognition.Payment
