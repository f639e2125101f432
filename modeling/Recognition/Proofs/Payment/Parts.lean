import Recognition.Proofs.Payment.Extent
import Recognition.Proofs.Payment.Printed

namespace Recognition.Payment

namespace SiReference

section Found

variable {r : Reading} {sep : Separator} {pos start : Nat}

def partAfter? (r : Reading) (p : Part) : Option Part := (dash? r p.span.stop).bind (part? r)

/-- How a reference that is read from `start` on lies in the text. -/
structure IsLaid (r : Reading) (start : Nat) (n : SiReference) : Prop where
  start_eq : n.span.start = start
  /-- It ends after its last part or, if it has none, after its model. -/
  stop_eq : ∃ pos, r.head? start = some (['S', 'I'], n.model, pos) ∧ start < pos ∧
    n.span.stop = (n.parts.getLast?.map (·.span.stop)).getD pos ∧
    ∀ p ∈ n.parts, pos ≤ p.span.start
  bounds : ∀ p ∈ n.parts, p.span.start < p.span.stop ∧ p.span.stop ≤ n.span.stop
  pairwise : n.parts.Pairwise fun p q => p.span.stop < q.span.start
  length_le : n.parts.length ≤ 3
  /-- There is no part without the one before it. -/
  exists_before : ∀ k q, n.parts[k + 1]? = some q →
    ∃ p, n.parts[k]? = some p ∧ partAfter? r p = some q

theorem digitsFrom_lt (h : (digitsFrom r pos).1 ≠ []) : pos < (digitsFrom r pos).2 := by
  rw [digitsFrom_eq] at h ⊢
  split at h
  · exact absurd rfl h
  · rename_i c next hdigit
    have hnext := Reading.digit?_bounds hdigit
    exact Nat.lt_of_lt_of_le hnext.1 (digitsFrom_bounds hnext.2).1

theorem part?_span {p : Part} (h : part? r pos = some p) :
    p.span.start = pos ∧ p.span.start < p.span.stop := by
  simp only [part?] at h
  split at h
  · cases h
  · rename_i hdigits
    obtain rfl := Option.some.inj h
    exact ⟨rfl, digitsFrom_lt (by simpa using hdigits)⟩

theorem partsFrom_succ (r : Reading) (count pos : Nat) :
    partsFrom r (count + 1) pos =
      match part? r pos with
      | none => []
      | some p => p :: ((dash? r p.span.stop).map (partsFrom r count)).getD [] := by
  rw [partsFrom]
  cases part? r pos with
  | none => rfl
  | some p => cases hdash : dash? r p.span.stop <;> simp [hdash]

theorem partsFrom_ordered (r : Reading) (count pos : Nat) :
    (∀ p ∈ partsFrom r count pos, pos ≤ p.span.start ∧ p.span.start < p.span.stop) ∧
      (partsFrom r count pos).Pairwise fun p q => p.span.stop < q.span.start := by
  induction count generalizing pos with
  | zero => simp [partsFrom]
  | succ count ih =>
    rw [partsFrom_succ]
    split
    · simp
    · rename_i p hp
      obtain ⟨hstart, hlt⟩ := part?_span hp
      cases hdash : dash? r p.span.stop with
      | none => simpa [hstart] using hlt
      | some next =>
        have hnext := dash?_bounds hdash
        obtain ⟨hfrom, hpairs⟩ := ih next
        simp only [Option.map_some, Option.getD_some, List.forall_mem_cons, List.pairwise_cons]
        refine ⟨⟨⟨Nat.le_of_eq hstart.symm, hlt⟩, ?_⟩, ?_, hpairs⟩
        · intro q hq
          have := hfrom q hq
          omega
        · intro q hq
          have := hfrom q hq
          omega

theorem length_partsFrom (r : Reading) (count pos : Nat) :
    (partsFrom r count pos).length ≤ count := by
  induction count generalizing pos with
  | zero => simp [partsFrom]
  | succ count ih =>
    rw [partsFrom_succ]
    split
    · simp
    · rename_i p hp
      cases dash? r p.span.stop with
      | none => simp
      | some next => simpa using ih next

theorem exists_of_partsFrom {count k : Nat} {q : Part}
    (h : (partsFrom r count pos)[k + 1]? = some q) :
    ∃ p, (partsFrom r count pos)[k]? = some p ∧ partAfter? r p = some q := by
  induction count generalizing pos k with
  | zero => simp [partsFrom] at h
  | succ count ih =>
    rw [partsFrom_succ] at h ⊢
    cases hp : part? r pos with
    | none => simp [hp] at h
    | some p =>
      cases hdash : dash? r p.span.stop with
      | none => simp [hp, hdash] at h
      | some next =>
        simp only [hp, hdash, Option.map_some, Option.getD_some, List.getElem?_cons_succ] at h ⊢
        -- The second part is read after this one, any later one after a part of the rest.
        cases k with
        | succ k => exact ih h
        | zero =>
          refine ⟨p, rfl, ?_⟩
          cases count with
          | zero => simp [partsFrom] at h
          | succ count =>
            rw [partsFrom_succ] at h
            cases hq : part? r next with
            | none => simp [hq] at h
            | some q' => simpa [hq, partAfter?, hdash] using h

theorem stop_le_last {parts : List Part} {last : Part}
    (hlt : ∀ p ∈ parts, p.span.start < p.span.stop)
    (hpairs : parts.Pairwise fun p q => p.span.stop < q.span.start)
    (hlast : parts.getLast? = some last) : ∀ p ∈ parts, p.span.stop ≤ last.span.stop := by
  obtain ⟨front, rfl⟩ := List.getLast?_eq_some_iff.1 hlast
  intro p hp
  rcases List.mem_append.1 hp with hp | hp
  · have hbefore := (List.pairwise_append.1 hpairs).2.2 p hp last (List.mem_singleton_self _)
    have hlast := hlt last (by simp)
    omega
  · rw [List.mem_singleton.1 hp]

theorem isLaid_of_read? {n : SiReference} (h : read? r sep start = some n) :
    n.IsLaid r start := by
  simp only [read?, Option.bind_eq_bind, Option.bind_eq_some_iff] at h
  obtain ⟨⟨letters, model, pos⟩, hhead, h⟩ := h
  have hpos := Reading.head?_bounds hhead
  split at h
  · cases h
  · rename_i hletters
    obtain rfl := Decidable.not_not.1 hletters
    split at h
    · obtain rfl := Option.some.inj h
      exact {
        start_eq := rfl
        stop_eq := ⟨pos, hhead, hpos.1, rfl, by simp⟩
        bounds := by simp
        pairwise := .nil
        length_le := Nat.zero_le _
        exists_before := by simp }
    · obtain rfl := Option.some.inj h
      have hskip := Reading.skip_bounds sep hpos.2
      obtain ⟨hfrom, hpairs⟩ := partsFrom_ordered r 3 ((r.separator? sep pos).getD pos)
      refine {
        start_eq := rfl
        stop_eq := ⟨pos, hhead, hpos.1, rfl, fun p hp => Nat.le_trans hskip.1 (hfrom p hp).1⟩
        bounds := ?_
        pairwise := hpairs
        length_le := length_partsFrom r 3 _
        exists_before := fun k q hq => exists_of_partsFrom hq }
      intro p hp
      obtain ⟨last, hlast⟩ := Option.isSome_iff_exists.1
        (List.getLast?_isSome.2 (List.ne_nil_of_mem hp))
      refine ⟨(hfrom p hp).2, ?_⟩
      -- With a part there is a last one, so the end is not that of the model.
      have hstop := stop_le_last (fun p hp => (hfrom p hp).2) hpairs hlast p hp
      simpa [hlast] using hstop

end Found

section Printed

/-- The parts with the range of characters that each takes, the first from `pos` on. -/
def placed (pos : Nat) : List (List Char) → List Part
  | [] => []
  | p :: ps => ⟨⟨pos, pos + p.length⟩, p⟩ :: placed (pos + p.length + 1) ps

def joined (parts : List (List Char)) : List Char := List.intercalate ['-'] parts

def IsNumber (p : List Char) : Prop := p ≠ [] ∧ ∀ c ∈ p, c.isDigit = true

theorem digits_placed (pos : Nat) (parts : List (List Char)) :
    (placed pos parts).map Part.digits = parts := by
  induction parts generalizing pos with
  | nil => rfl
  | cons p ps ih => rw [placed, List.map_cons, ih]

theorem joined_cons_cons (p q : List Char) (ps : List (List Char)) :
    joined (p :: q :: ps) = p ++ '-' :: joined (q :: ps) := by
  simp [joined, List.intercalate_cons_cons]

theorem joined_singleton (p : List Char) : joined [p] = p := by
  simp [joined]

theorem digit?_whole_of_head (flags : Flags) (as : List Char) {cs : List Char}
    (h : ∀ c ∈ cs.head?, c.isDigit = false) :
    (Reading.whole flags (as ++ cs)).digit? as.length = none := by
  rw [Reading.digit?, Reading.char?_whole]
  cases hc : cs.head?.filter (· ≠ '\x00') with
  | none => rfl
  | some c =>
    have hdigit := h c (Option.filter_eq_some_iff.1 hc).1
    simp [Option.filter_some, hdigit]

theorem digitsFrom_whole (flags : Flags) {ds : List Char} (hds : ∀ c ∈ ds, c.isDigit = true)
    (as : List Char) {rest : List Char} (hrest : ∀ c ∈ rest.head?, c.isDigit = false) :
    digitsFrom (.whole flags (as ++ (ds ++ rest))) as.length = (ds, as.length + ds.length) := by
  induction ds generalizing as with
  | nil =>
    rw [List.nil_append, digitsFrom_eq, digit?_whole_of_head flags as hrest]
    rfl
  | cons c ds ih =>
    rw [List.forall_mem_cons] at hds
    have hnext := ih hds.2 (as ++ [c])
    rw [List.append_assoc, List.singleton_append, List.length_append, List.length_singleton]
      at hnext
    rw [List.cons_append, digitsFrom_eq, Reading.digit?_whole as (ds ++ rest) hds.1 (.inl rfl)]
    simp only [hnext, List.length_cons]
    rw [Nat.add_assoc, Nat.add_comm 1]

theorem part?_whole (flags : Flags) {p : List Char} (hp : IsNumber p) (as : List Char)
    {rest : List Char} (hrest : ∀ c ∈ rest.head?, c.isDigit = false) :
    part? (.whole flags (as ++ (p ++ rest))) as.length =
      some ⟨⟨as.length, as.length + p.length⟩, p⟩ := by
  have hdigits := digitsFrom_whole flags hp.2 as hrest
  have hne : ¬ p.isEmpty = true := by simpa using hp.1
  simp only [part?, hdigits]
  rw [if_neg hne]

theorem dash?_whole (flags : Flags) (as cs : List Char) :
    dash? (.whole flags (as ++ '-' :: cs)) as.length = some (as.length + 1) := by
  rw [dash?, Reading.char?_whole]
  rfl

theorem dash?_whole_end (flags : Flags) (as : List Char) :
    dash? (.whole flags as) as.length = none := by
  have hchar := Reading.char?_whole flags as []
  rw [List.append_nil] at hchar
  rw [dash?, hchar]
  rfl

theorem partsFrom_joined (flags : Flags) {parts : List (List Char)}
    (hparts : ∀ p ∈ parts, IsNumber p) (hne : parts ≠ []) {count : Nat}
    (hcount : parts.length ≤ count) (as : List Char) :
    partsFrom (.whole flags (as ++ joined parts)) count as.length = placed as.length parts := by
  induction parts generalizing count as with
  | nil => exact absurd rfl hne
  | cons p ps ih =>
    obtain ⟨count, rfl⟩ : ∃ n, count = n + 1 :=
      ⟨count - 1, by rw [List.length_cons] at hcount; omega⟩
    rw [List.forall_mem_cons] at hparts
    rw [partsFrom_succ]
    -- A `-` follows every part but the last one, after which the text ends.
    cases ps with
    | nil =>
      have hend : ∀ c ∈ ([] : List Char).head?, c.isDigit = false := by simp
      have hpart := part?_whole flags hparts.1 as hend
      have hdash := dash?_whole_end flags (as ++ p)
      rw [List.append_nil] at hpart
      rw [List.length_append] at hdash
      simp only [joined_singleton, hpart, hdash]
      rfl
    | cons q ps =>
      have hother : ∀ c ∈ ('-' :: joined (q :: ps)).head?, c.isDigit = false := by simp
      have hpart := part?_whole flags hparts.1 as hother
      have hdash := dash?_whole flags (as ++ p) (joined (q :: ps))
      have hrest := ih hparts.2 (List.cons_ne_nil _ _) (Nat.le_of_succ_le_succ hcount)
        (as ++ p ++ ['-'])
      simp only [List.append_assoc, List.length_append, List.singleton_append,
        List.length_singleton] at hdash hrest
      rw [← Nat.add_assoc] at hrest
      simp only [joined_cons_cons, hpart, hdash, Option.map_some, Option.getD_some, hrest]
      rfl

theorem getLast?_placed {parts : List (List Char)} (hne : parts ≠ []) (pos : Nat) :
    (placed pos parts).getLast?.map (·.span.stop) = some (pos + (joined parts).length) := by
  induction parts generalizing pos with
  | nil => exact absurd rfl hne
  | cons p ps ih =>
    cases ps with
    | nil => simp [placed, joined_singleton]
    | cons q ps =>
      have hrest := ih (List.cons_ne_nil _ _) (pos + p.length + 1)
      rw [placed] at hrest
      rw [placed, placed, List.getLast?_cons_cons, hrest, joined_cons_cons, List.length_append,
        List.length_cons]
      congr 1
      omega

/-- The part `p` takes the range of its own digits. -/
def Part.IsAt (text : List Char) (p : Part) : Prop :=
  (text.take p.span.stop).drop p.span.start = p.digits

theorem isAt_append (as p cs : List Char) :
    Part.IsAt (as ++ (p ++ cs)) ⟨⟨as.length, as.length + p.length⟩, p⟩ := by
  rw [Part.IsAt, List.drop_take, List.drop_left, Nat.add_sub_cancel_left, List.take_left]

theorem isAt_placed (as : List Char) (parts : List (List Char)) :
    ∀ p ∈ placed as.length parts, p.IsAt (as ++ joined parts) := by
  induction parts generalizing as with
  | nil => simp [placed]
  | cons p ps ih =>
    cases ps with
    | nil => simpa [placed, joined_singleton] using isAt_append as p []
    | cons q ps =>
      have hrest := ih (as ++ p ++ ['-'])
      rw [List.length_append, List.length_append, List.length_singleton] at hrest
      rw [placed, joined_cons_cons, List.forall_mem_cons]
      refine ⟨isAt_append as p _, ?_⟩
      simpa using hrest

/-- A model that takes parts, and one to three of them. -/
structure IsReference (m n : Char) (parts : List (List Char)) : Prop where
  isDigit_fst : m.isDigit = true
  isDigit_snd : n.isDigit = true
  takes_parts : [m, n] ≠ ['9', '9']
  ne_nil : parts ≠ []
  length_le : parts.length ≤ 3
  isNumber : ∀ p ∈ parts, IsNumber p

def head (m n : Char) (mark : Option Char) : List Char := 'S' :: 'I' :: m :: n :: mark.toList

/-- The reference as it is printed, with `mark` or nothing after the model. -/
def printed (m n : Char) (mark : Option Char) (parts : List (List Char)) : List Char :=
  head m n mark ++ joined parts

/-- The reference that is found of these characters if character `k` begins at `φ k`. -/
def found (m n : Char) (mark : Option Char) (parts : List (List Char)) (span : Span)
    (φ : Nat → Nat) : SiReference where
  span := span
  model := [m, n]
  parts := (placed (head m n mark).length parts).map (Part.mapOffsets φ)
  isValid := lengthsFit [m, n] parts && modelFits [m, n] parts

variable {flags : Flags} {m n : Char} {mark : Option Char} {parts : List (List Char)}

theorem exists_joined_eq (hne : parts ≠ []) (hparts : ∀ p ∈ parts, IsNumber p) :
    ∃ c cs, joined parts = c :: cs ∧ c.isDigit = true := by
  obtain ⟨p, ps, rfl⟩ := List.exists_cons_of_ne_nil hne
  rw [List.forall_mem_cons] at hparts
  obtain ⟨c, cs, rfl⟩ := List.exists_cons_of_ne_nil hparts.1.1
  have hdigit := hparts.1.2 c List.mem_cons_self
  cases ps with
  | nil => exact ⟨c, cs, joined_singleton _, hdigit⟩
  | cons q ps => exact ⟨c, _, joined_cons_cons _ q ps, hdigit⟩

theorem mem_joined {c : Char} (hparts : ∀ p ∈ parts, IsNumber p) (hc : c ∈ joined parts) :
    c.isDigit = true ∨ c = '-' := by
  induction parts with
  | nil => simp [joined] at hc
  | cons p ps ih =>
    rw [List.forall_mem_cons] at hparts
    cases ps with
    | nil =>
      rw [joined_singleton] at hc
      exact .inl (hparts.1.2 c hc)
    | cons q ps =>
      rw [joined_cons_cons, List.mem_append, List.mem_cons] at hc
      rcases hc with hc | rfl | hc
      · exact .inl (hparts.1.2 c hc)
      · exact .inr rfl
      · exact ih hparts.2 hc

theorem skip_whole (flags : Flags) (m n : Char) (hmark : ∀ c ∈ mark, c ∈ spaces) {c : Char}
    {cs : List Char} (hc : c.isDigit = true) :
    ((Reading.whole flags (head m n mark ++ c :: cs)).separator? .space 4).getD 4 =
      (head m n mark).length := by
  cases mark with
  | none =>
    have hother : ∀ d ∈ (c :: cs).head?, d ∉ spaces := by
      simpa using IsAlnum.notMem_spaces (.inl hc)
    have hnone : (Reading.whole flags (head m n none ++ c :: cs)).separator? .space 4 = none :=
      Reading.separator?_of_other Separator.takes_space flags ['S', 'I', m, n] hother
    rw [hnone]
    rfl
  | some mark =>
    have hsome : (Reading.whole flags (head m n (some mark) ++ c :: cs)).separator? .space 4 =
        some 5 :=
      Reading.separator?_of_mark Separator.takes_space (hmark mark rfl) (.inl hc) (.inl rfl)
        ['S', 'I', m, n] cs
    rw [hsome]
    rfl

theorem recognize_scalars (h : IsReference m n parts) (hmark : ∀ c ∈ mark, c ∈ spaces) :
    (recognizer .space).recognize (.scalars (printed m n mark parts)) 0 none flags =
      some (found m n mark parts ⟨0, (printed m n mark parts).length⟩ id) := by
  have hhead : (Reading.whole flags (printed m n mark parts)).head? 0 =
      some (['S', 'I'], [m, n], 4) :=
    Reading.head?_whole (mark.toList ++ joined parts) rfl rfl h.isDigit_fst h.isDigit_snd
      (.inl rfl) (.inl rfl) (.inl rfl) (.inl rfl)
  obtain ⟨c, cs, hjoined, hc⟩ := exists_joined_eq h.ne_nil h.isNumber
  have hskip : ((Reading.whole flags (head m n mark ++ joined parts)).separator? .space 4).getD 4 =
      (head m n mark).length := by
    rw [hjoined]
    exact skip_whole flags m n hmark hc
  have hparts := partsFrom_joined flags h.isNumber h.ne_nil h.length_le (head m n mark)
  change read? (.whole flags (printed m n mark parts)) .space 0 = _
  simp only [read?, hhead, Option.bind_eq_bind, Option.bind_some]
  rw [if_neg (not_not_intro rfl), if_neg h.takes_parts, printed, hskip, hparts,
    getLast?_placed h.ne_nil, digits_placed, ← List.length_append]
  simp only [found, isValidReference, Option.getD_some]
  congr 2
  exact (List.map_id _).symm

theorem IsReference.toNat_le (h : IsReference m n parts) (hmark : ∀ c ∈ mark, c ∈ spaces) :
    ∀ c ∈ printed m n mark parts, c.toNat ≤ 0xFF := by
  have hdigit {c : Char} (hc : c.isDigit = true) : c.toNat ≤ 0xFF :=
    toNat_le_of_printed (.inl (.inl hc))
  simp only [printed, head, List.cons_append, List.forall_mem_cons, List.forall_mem_append,
    Option.mem_toList]
  refine ⟨by decide, by decide, hdigit h.isDigit_fst, hdigit h.isDigit_snd,
    fun c hc => toNat_le_of_printed (.inr (hmark c hc)), ?_⟩
  intro c hc
  rcases mem_joined h.isNumber hc with hc | rfl
  · exact hdigit hc
  · decide

/-- However it is written, the reference is read to its end, part by part. -/
theorem recognize_written (h : IsReference m n parts) (hmark : ∀ c ∈ mark, c ∈ spaces)
    {src : Source} {φ : Nat → Nat} (hw : Source.Writes (printed m n mark parts) src φ) :
    (recognizer .space).recognize src 0 none flags =
      some (found m n mark parts ⟨0, src.size⟩ φ) := by
  have hlatin : ∀ c ∈ printed m n mark parts, c.toNat ≤ 0xFF := h.toNat_le hmark
  have himage : Recognition.mapOffsets φ
      (found m n mark parts ⟨0, (printed m n mark parts).length⟩ id) =
        found m n mark parts ⟨φ 0, φ (printed m n mark parts).length⟩ φ := by
    simp only [found, Recognition.mapOffsets, mapOffsets, List.map_map]
    rfl
  rw [hw.recognize_eq (r := recognizer .space) hlatin fun hm hzero =>
      mirrorsRead.mirrors_recognizer hm (Separator.takes_space.mirrors flags hm) hzero (by simp),
    recognize_scalars h hmark, Option.map_some, himage, hw.offset_zero, hw.offset_length hlatin]

end Printed

/-- What is printed is read back. A reference with any model but 99 and with one to three parts is
read to its end, with its model and its parts at their own digits, whether a space, a no-break space
or nothing stands after the model and however the text is written. These make no difference to
whether it is valid. The parts of any reference that is found lie one after another in it, and it
ends with the last one. -/
theorem printed_read_back {m n : Char} {parts : List (List Char)} (h : IsReference m n parts)
    {mark : Option Char} (hmark : ∀ c ∈ mark, c ∈ spaces) (flags : Flags) :
    (∀ src φ, Source.Writes (printed m n mark parts) src φ →
      (recognizer .space).recognize src 0 none flags =
        some (found m n mark parts ⟨0, src.size⟩ φ)) ∧
      (placed (head m n mark).length parts).map Part.digits = parts ∧
      (∀ p ∈ placed (head m n mark).length parts, p.IsAt (printed m n mark parts)) ∧
      ∀ (sep : Separator) src start stop flags n,
        (recognizer sep).recognize src start stop flags = some n →
          n.IsLaid ⟨src, flags, src.limit stop⟩ start :=
  ⟨fun _ _ hw => recognize_written h hmark hw, digits_placed _ _, isAt_placed _ _,
    fun _ _ _ _ _ _ hread => isLaid_of_read? hread⟩

/-- With references for the space and for the last digit of a part, which is longer than its digits.
-/
theorem printed_read_back_after_nbsp :
    IsReference '0' '4' ["12343".toList, ['1'], ['5', '1']] ∧
      (∀ c ∈ some '\u00A0', c ∈ spaces) ∧
      (recognizer .space).recognize (.sgml "SI04&nbsp;1234&#51;-1-51".toList) 0 none .none =
        some ⟨⟨0, 24⟩, ['0', '4'], [⟨⟨10, 19⟩, "12343".toList⟩, ⟨⟨20, 21⟩, ['1']⟩,
          ⟨⟨22, 24⟩, ['5', '1']⟩], true⟩ := by
  have h : IsReference '0' '4' ["12343".toList, ['1'], ['5', '1']] :=
    ⟨rfl, rfl, by decide, by decide, by decide, by simp [IsNumber]⟩
  have hmark : ∀ c ∈ some '\u00A0', c ∈ spaces := by simp [spaces]
  refine ⟨h, hmark, ?_⟩
  have hw : Source.Writes
      (printed '0' '4' (some '\u00A0') ["12343".toList, ['1'], ['5', '1']]) _ _ :=
    .spelled (by decide +kernel : Sgml.decode .none "SI04&nbsp;1234&#51;-1-51".toList = _)
  have hread := (printed_read_back h hmark .none).1 _ _ hw
  rw [hread]
  decide +kernel

end SiReference

end Recognition.Payment
