import Mathlib.Data.List.Basic
import Recognition.Proofs.Encoding.Units
import Recognition.Proofs.Payment.Checksum

namespace Recognition.Payment

section Sum

def digitValue (c : Char) : Nat := c.toNat - '0'.toNat

/-- The sum of digits weighted 2, 3, 4, … from the right. -/
def weightedSum : List Nat → Nat
  | [] => 0
  | d :: ds => d * (ds.length + 2) + weightedSum ds

/-- What the remainder of the sum lacks to 11, if that is a digit. -/
def completing (sum : Nat) : Nat :=
  let lack := 11 - sum % 11
  if lack < 10 then lack else 0

theorem weightedSum11_cons (d : Nat) (ds : List Nat) :
    weightedSum11 (d :: ds) = (weightedSum11 ds + d * (ds.length + 2)) % 11 := by
  rw [weightedSum11, List.reverse_cons, List.zipIdx_append, List.foldl_append, List.length_reverse,
    Nat.add_comm ds.length]
  rfl

theorem weightedSum11_eq (ds : List Nat) : weightedSum11 ds = weightedSum ds % 11 := by
  induction ds with
  | nil => rfl
  | cons d ds ih =>
    rw [weightedSum11_cons, ih, weightedSum, Nat.mod_add_mod, Nat.add_comm]

theorem controlDigit_eq (ds : List Nat) : controlDigit ds = completing (weightedSum ds) := by
  rw [controlDigit, completing, weightedSum11_eq]
  split <;> split <;> omega

theorem mapM_digitValue? (cs : List Char) :
    cs.mapM digitValue? = if cs.all Char.isDigit then some (cs.map digitValue) else none := by
  induction cs with
  | nil => rfl
  | cons c cs ih =>
    rw [List.mapM_cons, ih, digitValue?]
    cases hc : c.isDigit with
    | false => simp [hc]
    | true => by_cases hcs : cs.all Char.isDigit = true <;> simp [hc, hcs, digitValue]

variable {parts : List (List Char)} {cs : List Char} {c : Char}

theorem isControlled_of_nil (h : parts.flatten = []) : isControlled parts = false := by
  rw [isControlled, h]
  rfl

theorem isControlled_of_concat (h : parts.flatten = cs ++ [c]) :
    isControlled parts =
      ((cs ++ [c]).all Char.isDigit &&
        completing (weightedSum (cs.map digitValue)) == digitValue c) := by
  rw [isControlled, h, mapM_digitValue?]
  cases (cs ++ [c]).all Char.isDigit with
  | false => rfl
  | true => simp [controlDigit_eq]

end Sum

section Words

def byteDigit? (b : UInt8) : Option UInt32 :=
  if 0x30 ≤ b ∧ b - 0x30 < 10 then some (b - 0x30).toUInt32 else none

def byteValue (b : UInt8) : Nat := b.toNat - 48

/-- The bytes of the parts, from the last of the last part to the first of the first. -/
def backwards (parts : List (List Char)) : List UInt8 :=
  parts.reverse.flatMap fun p => (Utf8.bytes p).reverse

/-- Whether `last` completes the digits that are read, to be weighted from `weight` on, after those
of `sum`. There is no answer if a weight, a product, a sum or a difference is no word. -/
def wordCompletes? (last weight sum : UInt32) : List UInt8 → Option Bool
  | [] => do
    let lack ← wordSub? 11 sum
    return (if 10 ≤ lack then 0 else lack) == last
  | b :: bs => do
    let next ← wordAdd? weight 1
    match byteDigit? b with
    | none => return false
    | some d => do
      let product ← wordMul? d weight
      let total ← wordAdd? sum product
      wordCompletes? last next (total % 11) bs

/-- `isControlled` as a scan back over the bytes, which stops at the first that is no digit. -/
def wordIsControlled? (parts : List (List Char)) : Option Bool :=
  match backwards parts with
  | [] => some false
  | b :: bs =>
    match byteDigit? b with
    | none => some false
    | some last => wordCompletes? last 2 0 bs

theorem byteDigit?_eq_some {b : UInt8} {d : UInt32} (h : byteDigit? b = some d) :
    d.toNat = b.toNat - 48 ∧ 48 ≤ b.toNat ∧ b.toNat ≤ 57 := by
  rw [byteDigit?] at h
  split at h
  · rename_i hb
    obtain rfl := Option.some.inj h
    have hle : 48 ≤ b.toNat := UInt8.le_iff_toNat_le.1 hb.1
    have hlt := UInt8.lt_iff_toNat_lt.1 hb.2
    have hsub : (b - 0x30).toNat = b.toNat - 48 := UInt8.toNat_sub_of_le _ _ hb.1
    have hten : UInt8.toNat 10 = 10 := rfl
    rw [UInt8.toNat_toUInt32]
    omega
  · cases h

theorem isSome_byteDigit?_iff {b : UInt8} :
    (byteDigit? b).isSome = true ↔ 48 ≤ b.toNat ∧ b.toNat ≤ 57 := by
  constructor
  · intro h
    obtain ⟨d, hd⟩ := Option.isSome_iff_exists.1 h
    exact (byteDigit?_eq_some hd).2
  · intro h
    have hle : 0x30 ≤ b := UInt8.le_iff_toNat_le.2 h.1
    have hsub : (b - 0x30).toNat = b.toNat - 48 := UInt8.toNat_sub_of_le _ _ hle
    have hten : UInt8.toNat 10 = 10 := rfl
    have hlt : b - 0x30 < 10 := UInt8.lt_iff_toNat_lt.2 (by omega)
    rw [byteDigit?, if_pos ⟨hle, hlt⟩]
    rfl

theorem exists_byte_of_ascii {c : Char} (h : c.toNat < 0x80) :
    ∃ b, String.utf8EncodeChar c = [b] ∧ b.toNat = c.toNat := by
  have hunits : Encoding.utf8.units c = [c.toNat] := Encoding.units_of_ascii h
  exact List.map_eq_singleton_iff.1 hunits

theorem all_utf8EncodeChar (c : Char) :
    (String.utf8EncodeChar c).all (byteDigit? · |>.isSome) = c.isDigit := by
  by_cases hc : c.toNat < 0x80
  · obtain ⟨b, hb, hvalue⟩ := exists_byte_of_ascii hc
    rw [hb, List.all_cons, List.all_nil, Bool.and_true, Bool.eq_iff_iff, isSome_byteDigit?_iff,
      isDigit_iff, hvalue]
  · have hnot : c.isDigit = false := by
      rw [← Bool.not_eq_true, isDigit_iff]
      omega
    obtain ⟨b, bs, hb⟩ := List.exists_cons_of_ne_nil (List.ne_nil_of_length_pos
      (by rw [String.length_utf8EncodeChar]; exact c.utf8Size_pos))
    have hmem : b.toNat ∈ Encoding.utf8.units c := List.mem_map_of_mem (by simp [hb])
    have hholds : Encoding.utf8.Holds c := trivial
    have hhigh := Encoding.le_of_mem_units hholds (Nat.le_of_not_lt hc) hmem
    have hnone : (byteDigit? b).isSome = false := by
      rw [← Bool.not_eq_true, isSome_byteDigit?_iff]
      omega
    rw [hb, List.all_cons, hnone, hnot, Bool.false_and]

theorem all_bytes (cs : List Char) :
    (Utf8.bytes cs).all (byteDigit? · |>.isSome) = cs.all Char.isDigit := by
  induction cs with
  | nil => rfl
  | cons c cs ih =>
    rw [List.all_cons, ← ih, ← all_utf8EncodeChar, ← List.all_append]
    rfl

theorem map_bytes {cs : List Char} (h : cs.all Char.isDigit = true) :
    (Utf8.bytes cs).map byteValue = cs.map digitValue := by
  induction cs with
  | nil => rfl
  | cons c cs ih =>
    rw [List.all_cons, Bool.and_eq_true] at h
    have hascii : c.toNat < 0x80 := by
      have := isDigit_iff.1 h.1
      omega
    obtain ⟨b, hb, hvalue⟩ := exists_byte_of_ascii hascii
    have hsplit : Utf8.bytes (c :: cs) = String.utf8EncodeChar c ++ Utf8.bytes cs := rfl
    rw [hsplit, hb, List.map_append, ih h.2, List.map_singleton, byteValue, hvalue]
    rfl

theorem backwards_eq (parts : List (List Char)) :
    backwards parts = (Utf8.bytes parts.flatten).reverse := by
  induction parts with
  | nil => rfl
  | cons p parts ih =>
    have hsplit : Utf8.bytes (p :: parts).flatten = Utf8.bytes p ++ Utf8.bytes parts.flatten := by
      rw [List.flatten_cons, Utf8.bytes, List.flatMap_append]
      rfl
    rw [hsplit, List.reverse_append, ← ih, backwards, List.reverse_cons, List.flatMap_append,
      List.flatMap_singleton]
    rfl

theorem exists_word_step {d weight sum : UInt32} (hd : d.toNat ≤ 9)
    (hweight : weight.toNat < 400000002) (hsum : sum.toNat < 11) :
    ∃ product total, wordMul? d weight = some product ∧ wordAdd? sum product = some total ∧
      (total % 11).toNat = (sum.toNat + d.toNat * weight.toNat) % 11 := by
  -- One digit more is added to the sum: it stands before those that are read, of which there are
  -- too few for any word to overflow.
  have hsize : UInt32.size = 4294967296 := rfl
  have hmul : d.toNat * weight.toNat ≤ 9 * weight.toNat := Nat.mul_le_mul_right _ hd
  obtain ⟨product, hproduct, hp⟩ := word?_of_lt (n := d.toNat * weight.toNat) (by omega)
  obtain ⟨total, htotal, ht⟩ := word?_of_lt (n := sum.toNat + product.toNat) (by omega)
  refine ⟨product, total, hproduct, htotal, ?_⟩
  rw [UInt32.toNat_mod, ht, hp]
  rfl

theorem wordCompletes?_nil {last weight sum : UInt32} {total : Nat}
    (hsum : sum.toNat = total % 11) :
    wordCompletes? last weight sum [] = some (completing total == last.toNat) := by
  have heleven : UInt32.toNat 11 = 11 := rfl
  have hten : UInt32.toNat 10 = 10 := rfl
  have hzero : UInt32.toNat 0 = 0 := rfl
  obtain ⟨lack, hlack, hvalue⟩ := wordSub?_of_le (a := 11) (b := sum) (by omega)
  have hcompleting : (if 10 ≤ lack then 0 else lack).toNat = completing total := by
    rw [completing]
    split
    · rename_i h
      have := UInt32.le_iff_toNat_le.1 h
      split <;> omega
    · rename_i h
      rw [UInt32.le_iff_toNat_le] at h
      split <;> omega
  have hsame : ((if 10 ≤ lack then 0 else lack) == last) = (completing total == last.toNat) := by
    rw [Bool.eq_iff_iff, beq_iff_eq, beq_iff_eq, ← hcompleting, UInt32.toNat_inj]
  rw [wordCompletes?, hlack, ← hsame]
  rfl

theorem wordCompletes?_eq {last weight sum : UInt32} {bs : List UInt8} {ds : List Nat}
    (hweight : weight.toNat = ds.length + 2) (hsum : sum.toNat = weightedSum ds % 11)
    (hsize : bs.length + ds.length < 400000000) :
    wordCompletes? last weight sum bs =
      some (bs.all (byteDigit? · |>.isSome) &&
        completing (weightedSum ((bs.map byteValue).reverse ++ ds)) == last.toNat) := by
  induction bs generalizing weight sum ds with
  | nil => exact wordCompletes?_nil hsum
  | cons b bs ih =>
    rw [List.length_cons] at hsize
    have hword : UInt32.size = 4294967296 := rfl
    have hone : UInt32.toNat 1 = 1 := rfl
    obtain ⟨next, hnext, hn⟩ := word?_of_lt (n := weight.toNat + UInt32.toNat 1) (by omega)
    -- The weight grows before the byte is looked at, and must be a word even if it is no digit.
    rw [wordCompletes?, wordAdd?, hnext]
    cases hb : byteDigit? b with
    | none => simp [hb]
    | some d =>
      obtain ⟨hvalue, -, hle⟩ := byteDigit?_eq_some hb
      have hd : d.toNat ≤ 9 := by omega
      have hfew : weight.toNat < 400000002 := by omega
      have hsmall : sum.toNat < 11 := by omega
      obtain ⟨product, total, hproduct, htotal, hrest⟩ := exists_word_step hd hfew hsmall
      have hsum' : (total % 11).toNat = weightedSum (byteValue b :: ds) % 11 := by
        rw [hrest, weightedSum, hsum, hweight, hvalue, Nat.mod_add_mod, Nat.add_comm]
        rfl
      have hnext' : next.toNat = (byteValue b :: ds).length + 2 := by
        rw [List.length_cons]
        omega
      have hstep := ih hnext' hsum' (by rw [List.length_cons]; omega)
      simp [hproduct, htotal, hstep, hb]

theorem isControlled_of_bytes {parts : List (List Char)} {bs : List UInt8} {b : UInt8}
    (h : Utf8.bytes parts.flatten = bs ++ [b]) :
    isControlled parts =
      ((bs ++ [b]).all (byteDigit? · |>.isSome) &&
        completing (weightedSum (bs.map byteValue)) == byteValue b) := by
  rcases List.eq_nil_or_concat' parts.flatten with hnil | ⟨cs, c, hconcat⟩
  · rw [hnil] at h
    simp [Utf8.bytes] at h
  · rw [isControlled_of_concat hconcat, ← hconcat, ← h, all_bytes]
    cases hall : parts.flatten.all Char.isDigit with
    | false => rfl
    | true =>
      have hvalues := map_bytes hall
      rw [h, hconcat, List.map_append, List.map_append] at hvalues
      obtain ⟨hbs, hb⟩ := List.append_inj' hvalues rfl
      rw [hbs, List.singleton_inj.1 hb]

theorem eq_nil_of_bytes {cs : List Char} (h : Utf8.bytes cs = []) : cs = [] := by
  cases cs with
  | nil => rfl
  | cons c cs =>
    have hsize := congrArg List.length h
    have := c.utf8Size_pos
    rw [Utf8.length_bytes, Utf8.size_cons, List.length_nil] at hsize
    omega

theorem size_flatten (parts : List (List Char)) :
    Utf8.size parts.flatten = (parts.map Utf8.size).sum := by
  induction parts with
  | nil => rfl
  | cons p parts ih =>
    rw [List.flatten_cons, Utf8.size_append, ih, List.map_cons, List.sum_cons]

theorem wordIsControlled?_eq {parts : List (List Char)}
    (h : (parts.map Utf8.size).sum < 400000000) :
    wordIsControlled? parts = some (isControlled parts) := by
  have hlength : (Utf8.bytes parts.flatten).length < 400000000 := by
    rwa [Utf8.length_bytes, size_flatten]
  rw [wordIsControlled?, backwards_eq]
  rcases List.eq_nil_or_concat' (Utf8.bytes parts.flatten) with hnil | ⟨bs, b, hconcat⟩
  · rw [hnil, isControlled_of_nil (eq_nil_of_bytes hnil)]
    rfl
  · rw [isControlled_of_bytes hconcat, hconcat, List.reverse_append]
    cases hb : byteDigit? b with
    | none => simp [hb]
    | some last =>
      have hvalue : last.toNat = byteValue b := (byteDigit?_eq_some hb).1
      rw [hconcat, List.length_append] at hlength
      have hcompletes : wordCompletes? last 2 0 bs.reverse =
          some (bs.reverse.all (byteDigit? · |>.isSome) &&
            completing (weightedSum ((bs.reverse.map byteValue).reverse ++ [])) == last.toNat) :=
        wordCompletes?_eq rfl rfl (by rw [List.length_reverse, List.length_nil]; omega)
      simp [hb, hcompletes, hvalue]

end Words

/-- Parts are controlled exactly if what they write together consists of digits, of which the last
is what the weighted sum of the others asks for. So it does not matter how it is cut into parts. In
fewer than 400 million bytes words of 32 bits are enough to see it. -/
theorem isControlled_iff (parts : List (List Char)) :
    (isControlled parts = true ↔
      ∃ cs c, parts.flatten = cs ++ [c] ∧ (∀ x ∈ cs ++ [c], x.isDigit = true) ∧
        digitValue c = completing (weightedSum (cs.map digitValue))) ∧
      (∀ parts', parts'.flatten = parts.flatten → isControlled parts' = isControlled parts) ∧
      ((parts.map Utf8.size).sum < 400000000 →
        wordIsControlled? parts = some (isControlled parts)) := by
  refine ⟨?_, ?_, wordIsControlled?_eq⟩
  · constructor
    · intro h
      rcases List.eq_nil_or_concat' parts.flatten with hnil | ⟨cs, c, hconcat⟩
      · rw [isControlled_of_nil hnil] at h
        cases h
      · rw [isControlled_of_concat hconcat, Bool.and_eq_true, List.all_eq_true, beq_iff_eq] at h
        exact ⟨cs, c, hconcat, h.1, h.2.symm⟩
    · rintro ⟨cs, c, hconcat, hdigits, hlast⟩
      rw [isControlled_of_concat hconcat, Bool.and_eq_true, List.all_eq_true, beq_iff_eq]
      exact ⟨hdigits, hlast.symm⟩
  · intro parts' h
    rw [isControlled, isControlled, h]

/-- What the sum lacks is 10 here, which is no digit. -/
example : wordIsControlled? [['1', '2', '3'], ['4', '5', '6', '7', '8', '9', '0', '1', '2', '0']] =
    some true := by decide +kernel

end Recognition.Payment
