import Recognition.Payment.CreditorReference
import Recognition.Payment.Iban

namespace Recognition.Payment

def IsAlnum (c : Char) : Prop := c.isDigit = true ∨ c.isUpper = true

namespace Reading

variable {r : Reading} {pos next : Nat} {c : Char}

theorem isUpper_of_capital? {flags : Flags} {d : Char} (h : capital? flags c = some d) :
    d.isUpper = true := by
  unfold capital? at h
  dsimp only at h
  generalize (if flags.ignoreCase = true then c.toUpper else c) = u at h
  split at h
  · rename_i hupper
    obtain rfl := Option.some.inj h
    exact hupper
  · simp at h

theorem isUpper_of_letter? (h : r.letter? pos = some (c, next)) : c.isUpper = true := by
  simp only [letter?, Option.bind_eq_bind, Option.bind_eq_some_iff, Option.pure_def] at h
  obtain ⟨_, _, d, hd, h⟩ := h
  obtain ⟨rfl, _⟩ := Prod.mk.inj (Option.some.inj h)
  exact isUpper_of_capital? hd

theorem isDigit_of_digit? (h : r.digit? pos = some (c, next)) : c.isDigit = true :=
  (Option.filter_eq_some_iff.1 h).2

theorem isAlnum_of_alnum? (h : r.alnum? pos = some (c, next)) : IsAlnum c := by
  rcases Option.or_eq_some_iff.1 h with h | ⟨_, h⟩
  · exact .inl (isDigit_of_digit? h)
  · exact .inr (isUpper_of_letter? h)

theorem isAlnum_of_head? {letters digits : List Char}
    (h : r.head? pos = some (letters, digits, next)) : ∀ c ∈ letters ++ digits, IsAlnum c := by
  simp only [head?, Option.bind_eq_bind, Option.bind_eq_some_iff, Option.pure_def] at h
  obtain ⟨⟨a, _⟩, ha, ⟨b, _⟩, hb, ⟨c, _⟩, hc, ⟨d, _⟩, hd, h⟩ := h
  obtain ⟨rfl, hrest⟩ := Prod.mk.inj (Option.some.inj h)
  obtain ⟨rfl, _⟩ := Prod.mk.inj hrest
  simp only [List.forall_mem_append, List.forall_mem_cons]
  exact ⟨⟨.inr (isUpper_of_letter? ha), .inr (isUpper_of_letter? hb), by simp⟩,
    .inl (isDigit_of_digit? hc), .inl (isDigit_of_digit? hd), by simp⟩

end Reading

theorem Iban.isAlnum_of_mem_readBban (r : Reading) (sep : Separator) (room pos : Nat) :
    ∀ c ∈ (readBban r sep room pos).1, IsAlnum c := by
  fun_induction readBban r sep room pos with
  | case1 pos => simp
  | case2 pos room next hnext ih => exact ih
  | case3 pos room hnone halnum => simp
  | case4 pos room hnone c next halnum rest ih =>
    rw [List.forall_mem_cons]
    exact ⟨Reading.isAlnum_of_alnum? halnum, ih⟩

theorem Iban.exists_of_read? {r : Reading} {sep : Separator} {start : Nat} {n : Iban}
    (h : read? r sep start = some n) :
    ∃ pos, r.head? start = some (n.country, n.checkDigits, pos) ∧
      readBban r sep (room n.country) pos = (n.bban, n.span.stop) ∧ n.bban ≠ [] ∧
      n.span.start = start ∧ n.isValid = isValidNumber n.country n.checkDigits n.bban := by
  simp only [read?, Option.bind_eq_bind, Option.bind_eq_some_iff] at h
  obtain ⟨⟨country, digits, pos⟩, hhead, h⟩ := h
  split at h
  · simp at h
  · rename_i hne
    obtain rfl := Option.some.inj h
    exact ⟨pos, hhead, rfl, by simpa using hne, rfl, rfl⟩

theorem CreditorReference.exists_of_read? {r : Reading} {sep : Separator} {start : Nat}
    {n : CreditorReference} (h : read? r sep start = some n) :
    ∃ pos cs, r.head? start = some (['R', 'F'], n.checkDigits, pos) ∧
      readFrom r sep width 0 pos = some (cs, n.span.stop) ∧ cs ≠ [] ∧ n.reference = pad cs ∧
      n.span.start = start ∧ n.isValid = isValidReference n.reference n.checkDigits := by
  simp only [read?, Option.bind_eq_bind, Option.bind_eq_some_iff] at h
  obtain ⟨⟨letters, digits, pos⟩, hhead, h⟩ := h
  split at h
  · simp at h
  · rename_i hletters
    obtain rfl := Decidable.not_not.1 hletters
    obtain ⟨⟨cs, stop⟩, hread, h⟩ := Option.bind_eq_some_iff.1 h
    split at h
    · simp at h
    · rename_i hne
      obtain rfl := Option.some.inj h
      exact ⟨pos, cs, hhead, hread, by simpa using hne, rfl, rfl, rfl⟩

end Recognition.Payment
