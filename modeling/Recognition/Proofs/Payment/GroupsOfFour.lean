import Recognition.Proofs.Payment.Printed

namespace Recognition.Payment

/-- `printed` is the text `cs`, before which there are `count` characters more, with one of `marks`
before some of its groups of four. -/
inductive InFours (marks : List Char) : Nat → List Char → List Char → Prop
  | nil {count : Nat} : InFours marks count [] []
  | next {count : Nat} {c : Char} {cs printed : List Char}
    (h : InFours marks (count + 1) cs printed) : InFours marks count (c :: cs) (c :: printed)
  | apart {count : Nat} {mark c : Char} {cs printed : List Char} (hcount : count % 4 = 0)
    (hmark : mark ∈ marks) (h : InFours marks (count + 1) cs printed) :
    InFours marks count (c :: cs) (mark :: c :: printed)

theorem InFours.refl {marks : List Char} (count : Nat) (cs : List Char) :
    InFours marks count cs cs := by
  induction cs generalizing count with
  | nil => exact .nil
  | cons c cs ih => exact .next (ih (count + 1))

theorem InFours.grouped {marks cs printed : List Char} {count : Nat}
    (h : InFours marks count cs printed) : Grouped marks cs printed := by
  induction h with
  | nil => exact .nil
  | next h ih => exact .next ih
  | apart hcount hmark h ih => exact .apart hmark ih

theorem numeralFrom_zeros (n : Nat) (cs : List Char) :
    numeralFrom 0 (List.replicate n '0' ++ cs) = numeralFrom 0 cs := by
  induction n with
  | zero => rfl
  | succ n ih => exact ih

theorem decimalNumber_zeros (n : Nat) (cs : List Char) :
    decimalNumber (List.replicate n '0' ++ cs) = decimalNumber cs := by
  rw [← numeral_eq_decimalNumber, ← numeral_eq_decimalNumber]
  exact numeralFrom_zeros n cs

namespace CreditorReference

section Found

variable {r : Reading} {sep : Separator}

theorem readFrom_length {room count pos stop : Nat} {cs : List Char}
    (h : readFrom r sep room count pos = some (cs, stop)) :
    cs.length ≤ room ∧ ∀ c ∈ cs, IsAlnum c := by
  induction room generalizing count pos stop cs with
  | zero =>
    rw [readFrom_zero] at h
    split at h
    · obtain ⟨rfl, -⟩ := Prod.mk.inj (Option.some.inj h)
      simp
    · cases h
  | succ room ih =>
    rw [readFrom_succ] at h
    split at h
    · obtain ⟨rfl, -⟩ := Prod.mk.inj (Option.some.inj h)
      simp
    · rename_i x hx
      obtain ⟨⟨cs', stop'⟩, hread, hr⟩ := Option.map_eq_some_iff.1 h
      obtain ⟨rfl, -⟩ := Prod.mk.inj hr
      obtain ⟨hlength, halnum⟩ := ih hread
      rw [List.length_cons, List.forall_mem_cons]
      exact ⟨Nat.succ_le_succ hlength, Reading.isAlnum_of_alnum? hx, halnum⟩

theorem isValidReference_pad_iff (cs checkDigits : List Char) :
    isValidReference (pad cs) checkDigits = true ↔
      decimalNumber (cs ++ ['R', 'F'] ++ checkDigits) % 97 = 1 := by
  rw [isValidReference, remainder97_eq_one_iff, pad, List.append_assoc, List.append_assoc,
    decimalNumber_zeros, List.append_assoc]

/-- What any reference that is found is made of. -/
structure Holds (n : CreditorReference) (cs : List Char) : Prop where
  isAlnum : ∀ c ∈ cs, IsAlnum c
  ne_nil : cs ≠ []
  length_le : cs.length ≤ 21
  reference_eq : n.reference = List.replicate (21 - cs.length) '0' ++ cs
  length_reference : n.reference.length = 21
  isValid_iff : n.isValid = true ↔
    decimalNumber (cs ++ ['R', 'F'] ++ n.checkDigits) % 97 = 1

theorem holds_of_pad {n : CreditorReference} {cs : List Char} (halnum : ∀ c ∈ cs, IsAlnum c)
    (hne : cs ≠ []) (hlength : cs.length ≤ width) (hreference : n.reference = pad cs)
    (hvalid : n.isValid = isValidReference n.reference n.checkDigits) : n.Holds cs := by
  refine ⟨halnum, hne, hlength, hreference, ?_, ?_⟩
  · rw [hreference, pad, List.length_append, List.length_replicate]
    exact Nat.sub_add_cancel hlength
  · rw [hvalid, hreference, isValidReference_pad_iff]

theorem exists_holds {n : CreditorReference} (h : (recognizer sep).Finds n) : ∃ cs, n.Holds cs := by
  obtain ⟨src, start, stop, flags, h⟩ := h
  obtain ⟨pos, cs, -, hread, hne, hreference, -, hvalid⟩ := exists_of_read? h
  obtain ⟨hlength, halnum⟩ := readFrom_length hread
  exact ⟨cs, holds_of_pad halnum hne hlength hreference hvalid⟩

end Found

section Printed

variable {sep : Separator} {marks : List Char} {flags : Flags}

theorem groupStart_of_other (hsep : sep.Takes marks) (flags : Flags) (count : Nat) (as : List Char)
    {cs : List Char} (h : ∀ c ∈ cs.head?, c ∉ spaces) :
    groupStart (.whole flags (as ++ cs)) sep count as.length = as.length := by
  rw [groupStart, Reading.separator?_of_other hsep flags as h]
  split <;> rfl

theorem groupStart_of_mark (hsep : sep.Takes marks) (flags : Flags) {mark c : Char}
    (hmark : mark ∈ marks) (hc : IsAlnum c) {count : Nat} (hcount : count % 4 = 0)
    (as cs : List Char) :
    groupStart (.whole flags (as ++ mark :: c :: cs)) sep count as.length = as.length + 1 := by
  rw [groupStart, Reading.separator?_of_mark hsep hmark hc (.inl rfl)]
  exact if_pos hcount

theorem readFrom_char {c : Char} (hc : IsAlnum c) {as cs rest : List Char} {count pos : Nat}
    (hgroup : groupStart (.whole flags (as ++ c :: rest)) sep count pos = as.length)
    (hrest : ∀ room, readFrom (.whole flags ((as ++ [c]) ++ rest)) sep room (count + 1)
        (as ++ [c]).length =
      if cs.length ≤ room then some (cs, ((as ++ [c]) ++ rest).length) else none) (room : Nat) :
    readFrom (.whole flags (as ++ c :: rest)) sep room count pos =
      if (c :: cs).length ≤ room then some (c :: cs, (as ++ c :: rest).length) else none := by
  have halnum : (Reading.whole flags (as ++ c :: rest)).alnum? as.length =
      some (c, as.length + 1) := Reading.alnum?_whole as rest hc (.inl rfl)
  simp only [List.append_assoc, List.singleton_append] at hrest
  rw [List.length_append, List.length_singleton] at hrest
  cases room with
  | zero => simp [readFrom_zero, hgroup, halnum]
  | succ room =>
    simp only [readFrom_succ, hgroup, halnum, hrest, List.length_cons, Nat.succ_le_succ_iff]
    split <;> rfl

theorem readFrom_inFours (hsep : sep.Takes marks) (flags : Flags) {count : Nat}
    {cs printed : List Char} (h : InFours marks count cs printed) (hcs : ∀ c ∈ cs, IsAlnum c)
    (as : List Char) (room : Nat) :
    readFrom (.whole flags (as ++ printed)) sep room count as.length =
      if cs.length ≤ room then some (cs, (as ++ printed).length) else none := by
  induction h generalizing as room with
  | @nil count =>
    have hgroup : groupStart (.whole flags as) sep count as.length = as.length := by
      have hend : ∀ c ∈ ([] : List Char).head?, c ∉ spaces := by simp
      simpa using groupStart_of_other hsep flags count as hend
    rw [List.append_nil, List.length_nil, if_pos (Nat.zero_le _)]
    cases room with
    | zero => rw [readFrom_zero, hgroup, Reading.alnum?_whole_end]
    | succ room => rw [readFrom_succ, hgroup, Reading.alnum?_whole_end]
  | @next count c cs printed h ih =>
    rw [List.forall_mem_cons] at hcs
    have hother : ∀ d ∈ (c :: printed).head?, d ∉ spaces := by
      simpa using hcs.1.notMem_spaces
    have hgroup := groupStart_of_other hsep flags count as hother
    exact readFrom_char hcs.1 hgroup (ih hcs.2 (as ++ [c])) room
  | @apart count mark c cs printed hcount hmark h ih =>
    rw [List.forall_mem_cons] at hcs
    have hgroup := groupStart_of_mark hsep flags hmark hcs.1 hcount as printed
    -- After the mark the character is read as in the case without one.
    have hsplit : as ++ mark :: c :: printed = (as ++ [mark]) ++ c :: printed := by simp
    rw [hsplit, ← List.length_singleton (a := mark), ← List.length_append] at hgroup
    rw [hsplit]
    exact readFrom_char hcs.1 hgroup (ih hcs.2 ((as ++ [mark]) ++ [c])) room

variable {d e : Char} {b printed : List Char}

/-- The reference that is found of these characters. -/
def found (d e : Char) (b : List Char) (span : Span) : CreditorReference :=
  ⟨span, [d, e], pad b, isValidReference (pad b) [d, e]⟩

theorem recognize_scalars (hsep : sep.Takes marks) (hd : d.isDigit = true) (he : e.isDigit = true)
    (hb : ∀ c ∈ b, IsAlnum c) (h : InFours marks 0 b printed) :
    (recognizer sep).recognize (.scalars ('R' :: 'F' :: d :: e :: printed)) 0 none flags =
      if 1 ≤ b.length ∧ b.length ≤ 21 then
        some (found d e b ⟨0, ('R' :: 'F' :: d :: e :: printed).length⟩)
      else none := by
  have hhead : (Reading.whole flags ('R' :: 'F' :: d :: e :: printed)).head? 0 =
      some (['R', 'F'], [d, e], 4) :=
    Reading.head?_whole printed rfl rfl hd he (.inl rfl) (.inl rfl) (.inl rfl) (.inl rfl)
  have hread := readFrom_inFours hsep flags h hb ['R', 'F', d, e] width
  change read? (.whole flags ('R' :: 'F' :: d :: e :: printed)) sep 0 = _
  change readFrom (.whole flags ('R' :: 'F' :: d :: e :: printed)) sep width 0 4 = _ at hread
  simp only [read?, hhead, Option.bind_eq_bind, Option.bind_some, hread]
  rw [if_neg (not_not_intro rfl)]
  by_cases hlength : b.length ≤ width
  · rw [if_pos hlength]
    cases b with
    | nil => rfl
    | cons c b =>
      rw [if_pos ⟨Nat.succ_pos _, hlength⟩]
      rfl
  · rw [if_neg hlength, if_neg fun h => hlength h.2]
    rfl

/-- However it is written, a text of these characters is read to its end or not at all. -/
theorem recognize_written (hsep : sep.Takes marks) (flags : Flags) (hd : d.isDigit = true)
    (he : e.isDigit = true) (hb : ∀ c ∈ b, IsAlnum c) (h : InFours marks 0 b printed)
    {src : Source} {φ : Nat → Nat}
    (hw : Source.Writes ('R' :: 'F' :: d :: e :: printed) src φ) :
    (recognizer sep).recognize src 0 none flags =
      if 1 ≤ b.length ∧ b.length ≤ 21 then some (found d e b ⟨0, src.size⟩) else none := by
  have hprinted : ∀ c ∈ 'R' :: 'F' :: d :: e :: printed, IsAlnum c ∨ c ∈ spaces := by
    simp only [List.forall_mem_cons]
    refine ⟨.inl (.inr rfl), .inl (.inr rfl), .inl (.inl hd), .inl (.inl he), ?_⟩
    intro c hc
    rcases h.grouped.mem_or_mem c hc with hc | hc
    · exact .inl (hb c hc)
    · exact .inr (hsep.subset hc)
  have hlatin : ∀ c ∈ 'R' :: 'F' :: d :: e :: printed, c.toNat ≤ 0xFF := fun c hc =>
    toNat_le_of_printed (hprinted c hc)
  rw [hw.recognize_eq (r := recognizer sep) hlatin fun hm hzero =>
      mirrorsRead.mirrors_recognizer hm (hsep.mirrors flags hm) hzero (by simp),
    recognize_scalars hsep hd he hb h, ← hw.offset_length hlatin]
  split
  · exact congrArg some (congrArg (found d e b ⟨·, φ _⟩) hw.offset_zero)
  · rfl

end Printed

/-- With check digits and nothing but letters and digits after them, a text is read to its end
exactly if there are between one and 21 of these. What is read does not depend on how the text is
written, nor on whether a space or a no-break space stands before some of its groups of four. Any
reference that is found has 21 characters, zeros in front of those that are read, and is valid
exactly if what it writes without the zeros has the remainder 1 by 97. -/
theorem groups_of_four_ignored {d e : Char} {b : List Char} (hd : d.isDigit = true)
    (he : e.isDigit = true) (hb : ∀ c ∈ b, IsAlnum c) (flags : Flags) :
    (∀ src φ, Source.Writes ('R' :: 'F' :: d :: e :: b) src φ →
      ((∃ n, (recognizer .none).recognize src 0 none flags = some n ∧ n.span = ⟨0, src.size⟩) ↔
        1 ≤ b.length ∧ b.length ≤ 21) ∧
      (∀ n, (recognizer .none).recognize src 0 none flags = some n →
        n.checkDigits = [d, e] ∧ n.Holds b) ∧
      ∀ printed, InFours spaces 0 b printed →
        ∀ src' φ', Source.Writes ('R' :: 'F' :: d :: e :: printed) src' φ' →
          (recognizer .space).recognize src' 0 none flags =
            ((recognizer .none).recognize src 0 none flags).map fun n =>
              { n with span := ⟨0, src'.size⟩ }) ∧
      ∀ (sep : Separator) (n : CreditorReference), (recognizer sep).Finds n →
        ∃ cs, n.Holds cs := by
  refine ⟨?_, fun sep n hfinds => exists_holds hfinds⟩
  intro src φ hw
  have hread := recognize_written Separator.takes_none flags hd he hb (.refl 0 b) hw
  refine ⟨?_, ?_, ?_⟩
  · rw [hread]
    constructor
    · rintro ⟨n, hn, -⟩
      by_contra hlength
      rw [if_neg hlength] at hn
      cases hn
    · intro hlength
      exact ⟨_, if_pos hlength, rfl⟩
  · intro n hn
    rw [hread] at hn
    split at hn
    · rename_i hlength
      obtain rfl := Option.some.inj hn
      have hne : b ≠ [] := List.ne_nil_of_length_pos hlength.1
      exact ⟨rfl, holds_of_pad hb hne hlength.2 rfl rfl⟩
    · cases hn
  · intro printed hprinted src' φ' hw'
    rw [hread, recognize_written Separator.takes_space flags hd he hb hprinted hw']
    split <;> rfl

/-- Groups that stand apart, but not all of them, and one after a reference. -/
theorem groups_of_four_ignored_after_nbsp :
    (∀ c ∈ "539007547034".toList, IsAlnum c) ∧
      InFours spaces 0 "539007547034".toList "\u00A053900754 7034".toList ∧
      (recognizer .space).recognize (.sgml "RF18&nbsp;53900754 7034".toList) 0 none .none =
        some ⟨⟨0, 23⟩, ['1', '8'], "000000000539007547034".toList, true⟩ := by
  have halnum : ∀ c ∈ "539007547034".toList, IsAlnum c := by
    simp [IsAlnum]
  have hprinted : InFours spaces 0 "539007547034".toList "\u00A053900754 7034".toList :=
    .apart rfl (by decide) (.next (.next (.next (.next (.next (.next (.next
      (.apart rfl (by decide) (.refl _ _)))))))))
  have hcompact : (recognizer .none).recognize (.utf8 "RF18539007547034".toList) 0 none .none =
      some ⟨⟨0, 16⟩, ['1', '8'], "000000000539007547034".toList, true⟩ := by decide +kernel
  have hspelled : Sgml.decode .none "RF18&nbsp;53900754 7034".toList =
      "RF18\u00A053900754 7034".toList := by decide +kernel
  have hread := ((groups_of_four_ignored (d := '1') (e := '8') rfl rfl halnum .none).1 _ _
    (.encoded .utf8)).2.2 _ hprinted _ _ (.spelled hspelled)
  refine ⟨halnum, hprinted, hread.trans ?_⟩
  exact (congrArg (Option.map _) hcompact).trans (by decide)

end CreditorReference

end Recognition.Payment
