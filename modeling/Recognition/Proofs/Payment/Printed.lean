import Recognition.Proofs.Payment.Validity
import Recognition.Proofs.Writing

namespace Recognition

theorem Source.glyph?_scalars_append (as cs : List Char) :
    (Source.scalars (as ++ cs)).glyph? as.length (as ++ cs).length =
      (cs.head?.filter (· ≠ '\x00')).map fun c => ⟨c, none, 1⟩ := by
  rw [Source.glyph?]
  cases cs with
  | nil => simp
  | cons c cs => simp

namespace Payment

def spaces : List Char := [' ', '\u00A0']

/-- `printed` is the text `cs` with one of `marks` before some of its characters. -/
inductive Grouped (marks : List Char) : List Char → List Char → Prop
  | nil : Grouped marks [] []
  | next {c : Char} {cs printed : List Char} (h : Grouped marks cs printed) :
    Grouped marks (c :: cs) (c :: printed)
  | apart {mark c : Char} {cs printed : List Char} (hmark : mark ∈ marks)
    (h : Grouped marks cs printed) : Grouped marks (c :: cs) (mark :: c :: printed)

theorem Grouped.refl {marks : List Char} (cs : List Char) : Grouped marks cs cs := by
  induction cs with
  | nil => exact .nil
  | cons c cs ih => exact .next ih

theorem Grouped.mem_or_mem {marks cs printed : List Char} (h : Grouped marks cs printed) :
    ∀ c ∈ printed, c ∈ cs ∨ c ∈ marks := by
  induction h with
  | nil => simp
  | next h ih => grind
  | apart hmark h ih => grind

/-- The character itself or its small letter. -/
def Lowers (c d : Char) : Prop := d = c ∨ d = c.toLower

/-- The same, the small letter only if case is ignored. -/
def MayStandFor (flags : Flags) (c d : Char) : Prop :=
  d = c ∨ flags.ignoreCase = true ∧ d = c.toLower

section Characters

variable {flags : Flags} {c d : Char}

theorem toLower_of_not_isUpper (h : c.isUpper = false) : c.toLower = c := by
  exact dif_neg (of_decide_eq_false h)

def capitals : List Char := (List.range' 65 26).map Char.ofNat

theorem mem_capitals (h : c.isUpper = true) : c ∈ capitals := by
  have hbounds := isUpper_iff.1 h
  rw [← Char.ofNat_toNat c]
  exact List.mem_map_of_mem (List.mem_range'_1.2 ⟨hbounds.1, by omega⟩)

theorem all_capitals : capitals.all (fun c => c.toUpper = c ∧ c.toLower.toUpper = c ∧
    c.isDigit = false ∧ c.toLower.isDigit = false ∧ c ∉ '\x00' :: spaces ∧
    c.toLower ∉ '\x00' :: spaces ∧ c.toLower.toNat < 0x80) = true := by decide +kernel

theorem letters_of_isUpper (h : c.isUpper = true) : c.toUpper = c ∧ c.toLower.toUpper = c ∧
    c.isDigit = false ∧ c.toLower.isDigit = false ∧ c ∉ '\x00' :: spaces ∧
    c.toLower ∉ '\x00' :: spaces := by
  have hcapital := List.all_eq_true.1 all_capitals c (mem_capitals h)
  rw [decide_eq_true_eq] at hcapital
  obtain ⟨hupper, hlower, hdigit, hdigit', hmark, hmark', -⟩ := hcapital
  exact ⟨hupper, hlower, hdigit, hdigit', hmark, hmark'⟩

theorem toNat_toLower_lt (h : c.isUpper = true) : c.toLower.toNat < 0x80 := by
  have hcapital := List.all_eq_true.1 all_capitals c (mem_capitals h)
  rw [decide_eq_true_eq] at hcapital
  obtain ⟨-, -, -, -, -, -, hlow⟩ := hcapital
  exact hlow

theorem isUpper_of_isDigit (h : c.isDigit = true) : c.isUpper = false := by
  cases hupper : c.isUpper with
  | false => rfl
  | true =>
    have := isDigit_iff.1 h
    have := isUpper_iff.1 hupper
    omega

theorem MayStandFor.eq_of_not_isUpper (h : MayStandFor flags c d) (hc : c.isUpper = false) :
    d = c := by
  rcases h with rfl | ⟨-, rfl⟩
  · rfl
  · exact toLower_of_not_isUpper hc

theorem MayStandFor.capital? (h : MayStandFor flags c d) (hc : c.isUpper = true) :
    Reading.capital? flags d = some c ∧ d.isDigit = false ∧ d ∉ '\x00' :: spaces := by
  obtain ⟨hupper, hlower, hdigit, hdigit', hmark, hmark'⟩ := letters_of_isUpper hc
  rcases h with rfl | ⟨hflags, rfl⟩
  · refine ⟨?_, hdigit, hmark⟩
    simp [Reading.capital?, hupper, hc]
  · refine ⟨?_, hdigit', hmark'⟩
    simp [Reading.capital?, hflags, hlower, hc]

theorem not_isDigit_of_mem (h : c ∈ '\x00' :: spaces) : c.isDigit = false := by
  simp only [spaces, List.mem_cons, List.not_mem_nil, or_false] at h
  rcases h with rfl | rfl | rfl <;> rfl

theorem not_isUpper_of_mem (h : c ∈ spaces) : c.isUpper = false := by
  simp only [spaces, List.mem_cons, List.not_mem_nil, or_false] at h
  rcases h with rfl | rfl <;> rfl

theorem MayStandFor.notMem (h : MayStandFor flags c d) (hc : IsAlnum c) :
    d ∉ '\x00' :: spaces := by
  rcases hc with hc | hc
  · rw [h.eq_of_not_isUpper (isUpper_of_isDigit hc)]
    intro hmem
    rw [not_isDigit_of_mem hmem] at hc
    cases hc
  · exact (h.capital? hc).2.2

theorem IsAlnum.notMem_spaces (h : IsAlnum c) : c ∉ spaces := by
  have hsame : MayStandFor .none c c := .inl rfl
  have hmark := hsame.notMem h
  rw [List.mem_cons, not_or] at hmark
  exact hmark.2

theorem MayStandFor.toNat_le (h : MayStandFor flags c d) (hc : IsAlnum c ∨ c ∈ spaces) :
    d.toNat ≤ 0xFF := by
  have hsmall : c.toNat ≤ 0xFF := by
    rcases hc with (hc | hc) | hc
    · have := isDigit_iff.1 hc
      omega
    · have := isUpper_iff.1 hc
      omega
    · simp only [spaces, List.mem_cons, List.not_mem_nil, or_false] at hc
      rcases hc with rfl | rfl <;> decide
  cases hupper : c.isUpper with
  | false => rwa [h.eq_of_not_isUpper hupper]
  | true =>
    rcases h with rfl | ⟨-, rfl⟩
    · exact hsmall
    · have := toNat_toLower_lt hupper
      omega

theorem toNat_le_of_printed (hc : IsAlnum c ∨ c ∈ spaces) : c.toNat ≤ 0xFF := by
  have hsame : MayStandFor .none c c := .inl rfl
  exact hsame.toNat_le hc

theorem length_units_of_lowers (enc : Encoding) (h : Lowers c d) :
    (enc.units d).length = (enc.units c).length := by
  rcases h with rfl | rfl
  · rfl
  · cases hupper : c.isUpper with
    | false => rw [toLower_of_not_isUpper hupper]
    | true =>
      have hbounds := isUpper_iff.1 hupper
      rw [Encoding.units_of_ascii (toNat_toLower_lt hupper), Encoding.units_of_ascii (by omega)]
      rfl

theorem size_source_of_lowers (enc : Encoding) {text lowered : List Char}
    (h : List.Forall₂ Lowers text lowered) :
    (enc.source lowered).size = (enc.source text).size := by
  rw [Encoding.size_source, Encoding.size_source]
  induction h with
  | nil => rfl
  | cons hd hrest ih =>
    rw [List.flatMap_cons, List.flatMap_cons, List.length_append, List.length_append, ih,
      length_units_of_lowers enc hd]

end Characters

namespace Reading

/-- A text read to its end. -/
def whole (flags : Flags) (cs : List Char) : Reading := ⟨.scalars cs, flags, cs.length⟩

variable {flags : Flags} {c d : Char} {as cs : List Char}

theorem char?_whole (flags : Flags) (as cs : List Char) :
    (whole flags (as ++ cs)).char? as.length =
      (cs.head?.filter (· ≠ '\x00')).map fun c => (c, as.length + 1) := by
  simp only [char?, whole, Source.glyph?_scalars_append]
  cases cs.head?.filter (· ≠ '\x00') <;> rfl

theorem digit?_whole (as cs : List Char) (hc : c.isDigit = true) (hd : MayStandFor flags c d) :
    (whole flags (as ++ d :: cs)).digit? as.length = some (c, as.length + 1) := by
  have hnul := hd.notMem (.inl hc)
  obtain rfl := hd.eq_of_not_isUpper (isUpper_of_isDigit hc)
  rw [List.mem_cons, not_or] at hnul
  rw [digit?, char?_whole]
  simp [Option.filter_some, hnul.1, hc]

theorem letter?_whole (as cs : List Char) (hc : c.isUpper = true) (hd : MayStandFor flags c d) :
    (whole flags (as ++ d :: cs)).letter? as.length = some (c, as.length + 1) := by
  obtain ⟨hcapital, -, hmark⟩ := hd.capital? hc
  have hflags : (whole flags (as ++ d :: cs)).flags = flags := rfl
  rw [List.mem_cons, not_or] at hmark
  simp [letter?, char?_whole, Option.filter_some, hmark.1, hflags, hcapital]

theorem alnum?_whole (as cs : List Char) (hc : IsAlnum c) (hd : MayStandFor flags c d) :
    (whole flags (as ++ d :: cs)).alnum? as.length = some (c, as.length + 1) := by
  rcases hc with hc | hc
  · rw [alnum?, digit?_whole as cs hc hd]
    rfl
  · have hdigit : (whole flags (as ++ d :: cs)).digit? as.length = none := by
      rw [digit?, char?_whole]
      have hnot := (hd.capital? hc).2.1
      by_cases hnul : d = '\x00' <;> simp [Option.filter_some, hnul, hnot]
    rw [alnum?, hdigit, letter?_whole as cs hc hd]
    rfl

theorem alnum?_whole_end : (whole flags as).alnum? as.length = none := by
  have hchar : (whole flags as).char? as.length = none := by
    simpa using char?_whole flags as []
  simp [alnum?, digit?, letter?, hchar]

theorem head?_whole (cs : List Char) {x y e x' y' d' e' : Char} (hx : x.isUpper = true)
    (hy : y.isUpper = true) (hd : d.isDigit = true) (he : e.isDigit = true)
    (hx' : MayStandFor flags x x') (hy' : MayStandFor flags y y') (hd' : MayStandFor flags d d')
    (he' : MayStandFor flags e e') :
    (whole flags (x' :: y' :: d' :: e' :: cs)).head? 0 = some ([x, y], [d, e], 4) := by
  have hfirst : (whole flags (x' :: y' :: d' :: e' :: cs)).letter? 0 = some (x, 1) :=
    letter?_whole [] _ hx hx'
  have hsecond : (whole flags (x' :: y' :: d' :: e' :: cs)).letter? 1 = some (y, 2) :=
    letter?_whole [x'] _ hy hy'
  have hthird : (whole flags (x' :: y' :: d' :: e' :: cs)).digit? 2 = some (d, 3) :=
    digit?_whole [x', y'] _ hd hd'
  have hfourth : (whole flags (x' :: y' :: d' :: e' :: cs)).digit? 3 = some (e, 4) :=
    digit?_whole [x', y', d'] _ he he'
  simp [head?, hfirst, hsecond, hthird, hfourth]

end Reading

/-- The separator takes any of `marks` and nothing but spaces, in every source alike. -/
structure Separator.Takes (sep : Separator) (marks : List Char) : Prop where
  subset : marks ⊆ spaces
  mirrors : ∀ {src dst : Source} {φ : Nat → Nat} {B : Nat → Prop} (flags : Flags),
    src.Mirrors dst φ B → sep.Mirrors src dst φ B flags
  mark : ∀ (flags : Flags) {mark : Char}, mark ∈ marks → ∀ as cs : List Char,
    sep.recognize (.scalars (as ++ mark :: cs)) as.length (some (as ++ mark :: cs).length) flags =
      some ⟨as.length, as.length + 1⟩
  other : ∀ (flags : Flags) (as : List Char) {cs : List Char}, (∀ c ∈ cs.head?, c ∉ spaces) →
    sep.recognize (.scalars (as ++ cs)) as.length (some (as ++ cs).length) flags = .none

namespace Separator

theorem takes_none : Separator.none.Takes [] where
  subset := List.nil_subset _
  mirrors := by
    intro src dst φ B flags h p e hp he
    exact mirrorsUpTo_none hp
  mark _ _ h := absurd h List.not_mem_nil
  other _ _ _ _ := rfl

theorem takes_space : Separator.space.Takes spaces where
  subset := List.Subset.refl _
  mirrors flags h := mirrors_space h flags
  mark := by
    intro flags mark hmark as cs
    simp only [space, Source.limit, Source.size, Nat.min_self, Source.glyph?_scalars_append]
    simp only [spaces, List.mem_cons, List.not_mem_nil, or_false] at hmark
    rcases hmark with rfl | rfl <;> rfl
  other := by
    intro flags as cs h
    simp only [space, Source.limit, Source.size, Nat.min_self, Source.glyph?_scalars_append]
    cases hfirst : cs.head?.filter (· ≠ '\x00') with
    | none => rfl
    | some c =>
      have hc := h c (Option.filter_eq_some_iff.1 hfirst).1
      simp only [spaces, List.mem_cons, List.not_mem_nil, or_false, not_or] at hc
      have hsingle : (⟨c, .none, 1⟩ : Glyph).single? = some c := rfl
      simp only [Option.map_some, hsingle]
      split
      · exact absurd (Option.some.inj ‹_›) hc.1
      · exact absurd (Option.some.inj ‹_›) hc.2
      · rfl

end Separator

namespace Reading

variable {sep : Separator} {marks : List Char} {flags : Flags}

theorem separator?_of_mark (hsep : sep.Takes marks) {mark c d : Char} (hmark : mark ∈ marks)
    (hc : IsAlnum c) (hd : MayStandFor flags c d) (as cs : List Char) :
    (whole flags (as ++ mark :: d :: cs)).separator? sep as.length =
      some (as.length + 1) := by
  have hnext : (whole flags (as ++ mark :: d :: cs)).alnum? (as.length + 1) =
      some (c, as.length + 2) := by
    simpa using alnum?_whole (as ++ [mark]) cs hc hd
  have hspan := hsep.mark flags hmark as (d :: cs)
  rw [separator?]
  simp only [whole] at hnext ⊢
  simp only [hspan, hnext, Option.bind_eq_bind, Option.bind_some, Option.isSome_some, and_true]
  rw [if_pos (Nat.lt_succ_self _)]

theorem separator?_of_other (hsep : sep.Takes marks) (flags : Flags) (as : List Char)
    {cs : List Char} (h : ∀ c ∈ cs.head?, c ∉ spaces) :
    (whole flags (as ++ cs)).separator? sep as.length = none := by
  have hspan := hsep.other flags as h
  rw [separator?]
  simp only [whole]
  rw [hspan]
  rfl

end Reading

namespace Iban

variable {sep : Separator} {marks : List Char} {flags : Flags}

theorem readBban_whole_cons (hsep : sep.Takes marks) {c d : Char} (hc : IsAlnum c)
    (hd : MayStandFor flags c d) (as cs : List Char) (room : Nat) :
    readBban (.whole flags (as ++ d :: cs)) sep (room + 1) as.length =
      Prod.map (c :: ·) id (readBban (.whole flags ((as ++ [d]) ++ cs)) sep room
        (as ++ [d]).length) := by
  have hmark := hd.notMem hc
  rw [List.mem_cons, not_or] at hmark
  have hsep' : (Reading.whole flags (as ++ d :: cs)).separator? sep as.length = none :=
    Reading.separator?_of_other hsep flags as (by simpa using hmark.2)
  rw [readBban_of_alnum hsep' (Reading.alnum?_whole as cs hc hd), List.append_assoc,
    List.length_append]
  rfl

theorem readBban_grouped (hsep : sep.Takes marks) {bban printed written : List Char}
    (hgrouped : Grouped marks bban printed) (hbban : ∀ c ∈ bban, IsAlnum c)
    (hwritten : List.Forall₂ (MayStandFor flags) printed written) {room : Nat}
    (hroom : bban.length ≤ room) (as : List Char) :
    readBban (.whole flags (as ++ written)) sep room as.length =
      (bban, (as ++ written).length) := by
  induction hgrouped generalizing written room as with
  | nil =>
    cases hwritten
    rw [List.append_nil]
    cases room with
    | zero => rw [readBban]
    | succ room =>
      have hsep' : (Reading.whole flags as).separator? sep as.length = none := by
        have hend : ∀ c ∈ ([] : List Char).head?, c ∉ spaces := by simp
        simpa using Reading.separator?_of_other hsep flags as hend
      rw [readBban_of_none hsep' Reading.alnum?_whole_end]
  | @next c cs printed h ih =>
    obtain ⟨d, rest, hd, hrest, rfl⟩ := List.forall₂_cons_left_iff.1 hwritten
    obtain ⟨room, rfl⟩ : ∃ n, room = n + 1 := ⟨room - 1, by rw [List.length_cons] at hroom; omega⟩
    rw [List.forall_mem_cons] at hbban
    rw [readBban_whole_cons hsep hbban.1 hd, ih hbban.2 hrest (Nat.le_of_succ_le_succ hroom)]
    simp
  | @apart mark c cs printed hmark h ih =>
    obtain ⟨m, _, hm, hafter, rfl⟩ := List.forall₂_cons_left_iff.1 hwritten
    obtain ⟨d, rest, hd, hrest, rfl⟩ := List.forall₂_cons_left_iff.1 hafter
    obtain rfl := hm.eq_of_not_isUpper (not_isUpper_of_mem (hsep.subset hmark))
    obtain ⟨room, rfl⟩ : ∃ n, room = n + 1 := ⟨room - 1, by rw [List.length_cons] at hroom; omega⟩
    rw [List.forall_mem_cons] at hbban
    rw [readBban_of_separator (Reading.separator?_of_mark hsep hmark hbban.1 hd as rest)]
    have hnext := readBban_whole_cons hsep hbban.1 hd (as ++ [m]) rest room
    rw [ih hbban.2 hrest (Nat.le_of_succ_le_succ hroom)] at hnext
    simpa using hnext

/-- Two capitals, two digits, and at least one letter or digit, but no more than numbers of the
country have. -/
structure IsNumber (x y d e : Char) (bban : List Char) : Prop where
  isUpper_fst : x.isUpper = true
  isUpper_snd : y.isUpper = true
  isDigit_fst : d.isDigit = true
  isDigit_snd : e.isDigit = true
  isAlnum : ∀ c ∈ bban, IsAlnum c
  ne_nil : bban ≠ []
  length_le : bban.length ≤ room [x, y]

def found (x y d e : Char) (bban : List Char) (span : Span) : Iban :=
  ⟨span, [x, y], [d, e], bban, isValidNumber [x, y] [d, e] bban⟩

variable {x y d e : Char} {bban printed written : List Char}

theorem recognize_scalars (hsep : sep.Takes marks) (h : IsNumber x y d e bban)
    (hgrouped : Grouped marks bban printed)
    (hwritten : List.Forall₂ (MayStandFor flags) (x :: y :: d :: e :: printed) written) :
    (recognizer sep).recognize (.scalars written) 0 none flags =
      some (found x y d e bban ⟨0, written.length⟩) := by
  rcases hwritten with - | ⟨hx, - | ⟨hy, - | ⟨hd, - | ⟨he, hrest⟩⟩⟩⟩
  rename_i x' y' d' e' rest
  have hhead := Reading.head?_whole rest h.isUpper_fst h.isUpper_snd h.isDigit_fst h.isDigit_snd
    hx hy hd he
  have hbban : readBban (.whole flags (x' :: y' :: d' :: e' :: rest)) sep (room [x, y]) 4 =
      (bban, (x' :: y' :: d' :: e' :: rest).length) :=
    readBban_grouped hsep hgrouped h.isAlnum hrest h.length_le [x', y', d', e']
  have hne : ¬ bban.isEmpty = true := by simpa using h.ne_nil
  change read? (.whole flags (x' :: y' :: d' :: e' :: rest)) sep 0 = _
  rw [read?, hhead]
  simp only [Option.bind_eq_bind, Option.bind_some, hbban]
  rw [if_neg hne]
  rfl

/-- In every encoding, and however it is spelled with references, the text as a whole is read as the
number `n`. -/
def ReadWhole (sep : Separator) (flags : Flags) (text : List Char) (n : Span → Iban) : Prop :=
  (∀ enc : Encoding, (recognizer sep).recognize (enc.source text) 0 none flags =
      some (n ⟨0, (enc.source text).size⟩)) ∧
    ∀ spelled, Sgml.decode .none spelled = text →
      (recognizer sep).recognize (.sgml spelled) 0 none flags = some (n ⟨0, Utf8.size spelled⟩)

theorem readWhole_of_scalars (hsep : sep.Takes marks) {text : List Char}
    (hlatin : ∀ c ∈ text, c.toNat ≤ 0xFF)
    (h : (recognizer sep).recognize (.scalars text) 0 none flags =
      some (found x y d e bban ⟨0, text.length⟩)) :
    ReadWhole sep flags text (found x y d e bban) := by
  have hread {src : Source} {φ : Nat → Nat} (hw : Source.Writes text src φ) :
      (recognizer sep).recognize src 0 none flags = some (found x y d e bban ⟨0, src.size⟩) := by
    have himage : Recognition.mapOffsets φ (found x y d e bban ⟨0, text.length⟩) =
        found x y d e bban ⟨φ 0, φ text.length⟩ := rfl
    rw [hw.recognize_eq (r := recognizer sep) hlatin fun hm hzero =>
      mirrorsRead.mirrors_recognizer hm (hsep.mirrors flags hm) hzero (by simp), h,
      Option.map_some, himage, hw.offset_zero, hw.offset_length hlatin]
  exact ⟨fun enc => hread (.encoded enc), fun _ hspelled => hread (.spelled hspelled)⟩

theorem le_of_written (hprinted : ∀ c ∈ printed, IsAlnum c ∨ c ∈ spaces)
    (hwritten : List.Forall₂ (MayStandFor flags) printed written) :
    ∀ d ∈ written, d.toNat ≤ 0xFF := by
  induction hwritten with
  | nil => simp
  | cons hd hrest ih =>
    rw [List.forall_mem_cons] at hprinted ⊢
    exact ⟨hd.toNat_le hprinted.1, ih hprinted.2⟩

theorem readWhole_written (hsep : sep.Takes marks) (h : IsNumber x y d e bban)
    (hgrouped : Grouped marks bban printed)
    (hwritten : List.Forall₂ (MayStandFor flags) (x :: y :: d :: e :: printed) written) :
    ReadWhole sep flags written (found x y d e bban) := by
  have hprinted : ∀ c ∈ x :: y :: d :: e :: printed, IsAlnum c ∨ c ∈ spaces := by
    simp only [List.forall_mem_cons]
    refine ⟨.inl (.inr h.isUpper_fst), .inl (.inr h.isUpper_snd), .inl (.inl h.isDigit_fst),
      .inl (.inl h.isDigit_snd), ?_⟩
    intro c hc
    rcases hgrouped.mem_or_mem c hc with hc | hc
    · exact .inl (h.isAlnum c hc)
    · exact .inr (hsep.subset hc)
  exact readWhole_of_scalars hsep (le_of_written hprinted hwritten)
    (recognize_scalars hsep h hgrouped hwritten)

/-- However a number is printed in groups, and whichever of its letters are small where case is
ignored, it is read as the same number, in every encoding and with whatever references it is
spelled. -/
theorem groups_and_case_ignored (h : IsNumber x y d e bban)
    (hgrouped : Grouped spaces bban printed) (flags : Flags) :
    ReadWhole .none flags (x :: y :: d :: e :: bban) (found x y d e bban) ∧
      ReadWhole .space flags (x :: y :: d :: e :: printed) (found x y d e bban) ∧
      ∀ lowered, List.Forall₂ Lowers (x :: y :: d :: e :: printed) lowered →
        flags.ignoreCase = true →
          ReadWhole .space flags lowered (found x y d e bban) ∧
            ∀ (enc : Encoding) (flags' : Flags),
              (recognizer .space).recognize (enc.source lowered) 0 none flags =
                (recognizer .space).recognize (enc.source (x :: y :: d :: e :: printed)) 0 none
                  flags' := by
  have hself (flags : Flags) (text : List Char) :
      List.Forall₂ (MayStandFor flags) text text := List.forall₂_same.2 fun c _ => .inl rfl
  have hspace := Separator.takes_space
  refine ⟨?_, ?_, ?_⟩
  · exact readWhole_written Separator.takes_none h (.refl bban) (hself flags _)
  · exact readWhole_written hspace h hgrouped (hself flags _)
  · intro lowered hlowered hflags
    have hwritten : List.Forall₂ (MayStandFor flags) (x :: y :: d :: e :: printed) lowered :=
      hlowered.imp fun c d hd => hd.imp id fun hd => ⟨hflags, hd⟩
    have hread := readWhole_written hspace h hgrouped hwritten
    refine ⟨hread, ?_⟩
    intro enc flags'
    have hprinted := readWhole_written hspace h hgrouped (hself flags' _)
    rw [hread.1 enc, hprinted.1 enc, size_source_of_lowers enc hlowered]

/-- A number in groups, one of them after a reference, and in small letters. -/
theorem groups_and_case_ignored_after_nbsp :
    IsNumber 'N' 'O' '9' '3' ['8', '6', '0', '1', '1', '1', '1', '7', '9', '4', '7'] ∧
      Grouped spaces ['8', '6', '0', '1', '1', '1', '1', '7', '9', '4', '7']
        ['\u00A0', '8', '6', '0', '1', ' ', '1', '1', '1', '7', '9', '4', '7'] ∧
      (recognizer .space).recognize (.sgml "no93&nbsp;8601 1117947".toList) 0 none ⟨true, false⟩ =
        some ⟨⟨0, 22⟩, ['N', 'O'], ['9', '3'],
          ['8', '6', '0', '1', '1', '1', '1', '7', '9', '4', '7'], true⟩ := by
  have hnumber : IsNumber 'N' 'O' '9' '3'
      ['8', '6', '0', '1', '1', '1', '1', '7', '9', '4', '7'] := {
    isUpper_fst := rfl
    isUpper_snd := rfl
    isDigit_fst := rfl
    isDigit_snd := rfl
    isAlnum := by simp [IsAlnum]
    ne_nil := List.cons_ne_nil _ _
    length_le := by decide +kernel }
  have hgrouped : Grouped spaces ['8', '6', '0', '1', '1', '1', '1', '7', '9', '4', '7']
      ['\u00A0', '8', '6', '0', '1', ' ', '1', '1', '1', '7', '9', '4', '7'] :=
    .apart (by decide) (.next (.next (.next (.apart (by decide) (.refl _)))))
  have hlowered : List.Forall₂ Lowers
      ['N', 'O', '9', '3', '\u00A0', '8', '6', '0', '1', ' ', '1', '1', '1', '7', '9', '4', '7']
      ['n', 'o', '9', '3', '\u00A0', '8', '6', '0', '1', ' ', '1', '1', '1', '7', '9', '4',
        '7'] := by
    simp [Lowers]
  have hread := ((groups_and_case_ignored hnumber hgrouped ⟨true, false⟩).2.2 _ hlowered rfl).1.2
    "no93&nbsp;8601 1117947".toList (by decide +kernel)
  have hvalid : isValidNumber ['N', 'O'] ['9', '3']
      ['8', '6', '0', '1', '1', '1', '1', '7', '9', '4', '7'] = true := by decide +kernel
  have hsize : Utf8.size "no93&nbsp;8601 1117947".toList = 22 := by decide
  rw [hsize, found, hvalid] at hread
  exact ⟨hnumber, hgrouped, hread⟩

end Iban

end Payment

end Recognition
