import Recognition.Proofs.Payment.Checksum
import Recognition.Proofs.Payment.Reading

namespace Recognition

/-- `x` is recognized in some source at some offset. -/
def Recognizer.Finds {α : Type} (r : Recognizer α) (x : α) : Prop :=
  ∃ src start stop flags, r.recognize src start stop flags = some x

namespace Payment

theorem countryOf?_code : ∀ c ∈ countries, countryOf? c.code = some c := by decide +kernel

theorem countryOf?_eq_some_iff {code : List Char} {c : Country} :
    countryOf? code = some c ↔ c ∈ countries ∧ c.code = code := by
  constructor
  · intro h
    exact ⟨List.mem_of_find?_eq_some h, by simpa using List.find?_some h⟩
  · rintro ⟨hc, rfl⟩
    exact countryOf?_code c hc

theorem remainder97_eq_one_iff {cs : List Char} :
    (remainder97 cs == 1) = true ↔ decimalNumber cs % 97 = 1 := by
  rw [beq_iff_eq, remainder97_eq_decimalNumber]

namespace Iban

theorem isValidNumber_iff {country checkDigits bban : List Char} :
    isValidNumber country checkDigits bban = true ↔
      ∃ c ∈ countries, c.code = country ∧ bban.length + 4 = c.length ∧
        (∀ ds ∈ c.checkDigits, checkDigits = ds) ∧
        decimalNumber (bban ++ country ++ checkDigits) % 97 = 1 := by
  rw [isValidNumber, Bool.and_eq_true, remainder97_eq_one_iff, Option.any_eq_true]
  simp only [countryOf?_eq_some_iff, Bool.and_eq_true, beq_iff_eq]
  constructor
  · rintro ⟨⟨c, ⟨hc, hcode⟩, hlength, hdigits⟩, hnumber⟩
    refine ⟨c, hc, hcode, hlength.symm, ?_, hnumber⟩
    intro ds hds
    rw [Option.mem_def.1 hds, Option.all_some, beq_iff_eq] at hdigits
    exact hdigits.symm
  · rintro ⟨c, hc, hcode, hlength, hdigits, hnumber⟩
    refine ⟨⟨c, ⟨hc, hcode⟩, hlength.symm, ?_⟩, hnumber⟩
    cases hds : c.checkDigits with
    | none => rfl
    | some ds => simp [hdigits ds hds]

theorem exists_read?_of_finds {sep : Separator} {n : Iban} (h : (recognizer sep).Finds n) :
    ∃ r start, read? r sep start = some n := by
  obtain ⟨src, start, stop, flags, h⟩ := h
  exact ⟨_, start, h⟩

theorem isAlnum_of_finds {sep : Separator} {n : Iban} (h : (recognizer sep).Finds n) :
    ∀ c ∈ n.bban ++ n.country ++ n.checkDigits, IsAlnum c := by
  obtain ⟨r, start, h⟩ := exists_read?_of_finds h
  obtain ⟨pos, hhead, hbban, -⟩ := exists_of_read? h
  have hin := isAlnum_of_mem_readBban r sep (room n.country) pos
  rw [hbban] at hin
  rw [List.append_assoc, List.forall_mem_append]
  exact ⟨hin, Reading.isAlnum_of_head? hhead⟩

theorem isValid_of_finds {sep : Separator} {n : Iban} (h : (recognizer sep).Finds n) :
    n.isValid = isValidNumber n.country n.checkDigits n.bban := by
  obtain ⟨r, start, h⟩ := exists_read?_of_finds h
  obtain ⟨_, _, _, _, _, hvalid⟩ := exists_of_read? h
  exact hvalid

/-- An account number is valid exactly if its country is known, it has the length of its country's
numbers, and their check digits where these do not vary, and what it writes has the remainder 1 by
97. It consists of digits and capitals, and words of 32 bits are enough for the remainder. -/
theorem found_isValid_iff {sep : Separator} {n : Iban} (h : (recognizer sep).Finds n) :
    (n.isValid = true ↔
      ∃ c ∈ countries, c.code = n.country ∧ n.bban.length + 4 = c.length ∧
        (∀ ds ∈ c.checkDigits, n.checkDigits = ds) ∧
        decimalNumber (n.bban ++ n.country ++ n.checkDigits) % 97 = 1) ∧
      (∀ c ∈ n.bban ++ n.country ++ n.checkDigits, IsAlnum c) ∧
      ∀ cs, remainder97 cs = decimalNumber cs % 97 ∧
        ∃ r, wordRemainder97? cs = some r ∧ r.toNat = remainder97 cs := by
  refine ⟨?_, isAlnum_of_finds h, ?_⟩
  · rw [isValid_of_finds h]
    exact isValidNumber_iff
  · intro cs
    exact ⟨remainder97_eq_decimalNumber cs, wordRemainder97?_eq cs⟩

/-- A number in groups, of a country whose check digits vary. -/
theorem found_isValid_iff_in_groups :
    (recognizer .space).Finds ⟨⟨0, 18⟩, ['N', 'O'], ['9', '3'],
        ['8', '6', '0', '1', '1', '1', '1', '7', '9', '4', '7'], true⟩ ∧
      decimalNumber ['8', '6', '0', '1', '1', '1', '1', '7', '9', '4', '7', 'N', 'O', '9', '3'] %
        97 = 1 := by
  have hfinds : (recognizer .space).Finds ⟨⟨0, 18⟩, ['N', 'O'], ['9', '3'],
      ['8', '6', '0', '1', '1', '1', '1', '7', '9', '4', '7'], true⟩ :=
    ⟨.utf8 ['N', 'O', '9', '3', ' ', '8', '6', '0', '1', ' ', '1', '1', '1', '7', ' ', '9', '4',
      '7'], 0, none, .none, by decide +kernel⟩
  obtain ⟨c, -, -, -, -, hnumber⟩ := (found_isValid_iff hfinds).1.1 rfl
  exact ⟨hfinds, hnumber⟩

end Iban

theorem CreditorReference.isValid_of_finds {sep : Separator} {n : CreditorReference}
    (h : (recognizer sep).Finds n) : n.isValid = isValidReference n.reference n.checkDigits := by
  obtain ⟨src, start, stop, flags, h⟩ := h
  obtain ⟨_, _, _, _, _, _, _, hvalid⟩ := exists_of_read? h
  exact hvalid

/-- One slip, in the number or in its check digits, makes the second of the first. -/
def OneSlip (number checkDigits number' checkDigits' : List Char) : Prop :=
  Slip number number' ∧ checkDigits = checkDigits' ∨
    number = number' ∧ Slip checkDigits checkDigits'

theorem OneSlip.mod_ne {as bs cs ds : List Char} (h : OneSlip as bs cs ds) (between : List Char) :
    decimalNumber (as ++ between ++ bs) % 97 ≠ decimalNumber (cs ++ between ++ ds) % 97 := by
  rw [← numeral_eq_decimalNumber, ← numeral_eq_decimalNumber, numeral, numeral]
  rcases h with ⟨hslip, rfl⟩ | ⟨rfl, hslip⟩
  · rw [List.append_assoc, List.append_assoc]
    exact hslip.mod_ne 0 _
  · have hne := hslip.mod_ne (numeralFrom 0 (as ++ between)) []
    rw [List.append_nil, List.append_nil, ← numeralFrom_append, ← numeralFrom_append] at hne
    exact hne

/-- Check digits detect a slip: of two account numbers of one country, or of two creditor
references, that one slip makes of each other at most one is valid. -/
theorem slip_detected :
    (∀ (sep sep' : Separator) (n n' : Iban), (Iban.recognizer sep).Finds n →
      (Iban.recognizer sep').Finds n' → n.country = n'.country →
      OneSlip n.bban n.checkDigits n'.bban n'.checkDigits →
      ¬ (n.isValid = true ∧ n'.isValid = true)) ∧
    ∀ (sep sep' : Separator) (n n' : CreditorReference),
      (CreditorReference.recognizer sep).Finds n → (CreditorReference.recognizer sep').Finds n' →
      OneSlip n.reference n.checkDigits n'.reference n'.checkDigits →
      ¬ (n.isValid = true ∧ n'.isValid = true) := by
  constructor
  · rintro sep sep' n n' hfinds hfinds' hcountry hslip ⟨hvalid, hvalid'⟩
    rw [Iban.isValid_of_finds hfinds, Iban.isValidNumber_iff] at hvalid
    rw [Iban.isValid_of_finds hfinds', Iban.isValidNumber_iff, ← hcountry] at hvalid'
    obtain ⟨_, _, _, _, _, hnumber⟩ := hvalid
    obtain ⟨_, _, _, _, _, hnumber'⟩ := hvalid'
    exact hslip.mod_ne n.country (hnumber.trans hnumber'.symm)
  · rintro sep sep' n n' hfinds hfinds' hslip ⟨hvalid, hvalid'⟩
    rw [CreditorReference.isValid_of_finds hfinds, CreditorReference.isValidReference,
      remainder97_eq_one_iff] at hvalid
    rw [CreditorReference.isValid_of_finds hfinds', CreditorReference.isValidReference,
      remainder97_eq_one_iff] at hvalid'
    exact hslip.mod_ne ['R', 'F'] (hvalid.trans hvalid'.symm)

/-- The last two digits swapped, and the last letter replaced. -/
theorem slip_detected_at_end :
    ((Iban.recognizer .none).Finds ⟨⟨0, 15⟩, ['N', 'O'], ['9', '3'],
          ['8', '6', '0', '1', '1', '1', '1', '7', '9', '4', '7'], true⟩ ∧
        (Iban.recognizer .none).Finds ⟨⟨0, 15⟩, ['N', 'O'], ['9', '3'],
          ['8', '6', '0', '1', '1', '1', '1', '7', '9', '7', '4'], false⟩ ∧
        OneSlip ['8', '6', '0', '1', '1', '1', '1', '7', '9', '4', '7'] ['9', '3']
          ['8', '6', '0', '1', '1', '1', '1', '7', '9', '7', '4'] ['9', '3'] ∧
        ¬ (true = true ∧ false = true)) ∧
      (CreditorReference.recognizer .none).Finds ⟨⟨0, 8⟩, ['6', '7'],
          List.replicate 17 '0' ++ ['A', 'B', 'C', 'D'], true⟩ ∧
        (CreditorReference.recognizer .none).Finds ⟨⟨0, 8⟩, ['6', '7'],
          List.replicate 17 '0' ++ ['A', 'B', 'C', 'E'], false⟩ ∧
        OneSlip (List.replicate 17 '0' ++ ['A', 'B', 'C', 'D']) ['6', '7']
          (List.replicate 17 '0' ++ ['A', 'B', 'C', 'E']) ['6', '7'] ∧
        ¬ (true = true ∧ false = true) := by
  have hnumber : (Iban.recognizer .none).Finds ⟨⟨0, 15⟩, ['N', 'O'], ['9', '3'],
      ['8', '6', '0', '1', '1', '1', '1', '7', '9', '4', '7'], true⟩ :=
    ⟨.utf8 ['N', 'O', '9', '3', '8', '6', '0', '1', '1', '1', '1', '7', '9', '4', '7'], 0, none,
      .none, by decide +kernel⟩
  have hnumber' : (Iban.recognizer .none).Finds ⟨⟨0, 15⟩, ['N', 'O'], ['9', '3'],
      ['8', '6', '0', '1', '1', '1', '1', '7', '9', '7', '4'], false⟩ :=
    ⟨.utf8 ['N', 'O', '9', '3', '8', '6', '0', '1', '1', '1', '1', '7', '9', '7', '4'], 0, none,
      .none, by decide +kernel⟩
  have hreference : (CreditorReference.recognizer .none).Finds ⟨⟨0, 8⟩, ['6', '7'],
      List.replicate 17 '0' ++ ['A', 'B', 'C', 'D'], true⟩ :=
    ⟨.utf8 ['R', 'F', '6', '7', 'A', 'B', 'C', 'D'], 0, none, .none, by decide +kernel⟩
  have hreference' : (CreditorReference.recognizer .none).Finds ⟨⟨0, 8⟩, ['6', '7'],
      List.replicate 17 '0' ++ ['A', 'B', 'C', 'E'], false⟩ :=
    ⟨.utf8 ['R', 'F', '6', '7', 'A', 'B', 'C', 'E'], 0, none, .none, by decide +kernel⟩
  have hslip : OneSlip ['8', '6', '0', '1', '1', '1', '1', '7', '9', '4', '7'] ['9', '3']
      ['8', '6', '0', '1', '1', '1', '1', '7', '9', '7', '4'] ['9', '3'] :=
    .inl ⟨.swapped ['8', '6', '0', '1', '1', '1', '1', '7', '9'] [] (.inl (by decide)) (by decide),
      rfl⟩
  have hslip' : OneSlip (List.replicate 17 '0' ++ ['A', 'B', 'C', 'D']) ['6', '7']
      (List.replicate 17 '0' ++ ['A', 'B', 'C', 'E']) ['6', '7'] :=
    .inl ⟨.replaced (List.replicate 17 '0' ++ ['A', 'B', 'C']) [] (.inr (by decide)) (by decide),
      rfl⟩
  exact ⟨⟨hnumber, hnumber', hslip, slip_detected.1 _ _ _ _ hnumber hnumber' rfl hslip⟩,
    hreference, hreference', hslip', slip_detected.2 _ _ _ _ hreference hreference' hslip'⟩

end Payment

end Recognition
