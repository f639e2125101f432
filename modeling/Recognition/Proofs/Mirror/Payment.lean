import Recognition.Proofs.Mirror.Grammar

namespace Recognition

namespace Payment

/-- At offsets between glyphs the separator finds in `dst` the image of what it finds in `src`, and
what it finds ends at such an offset. -/
def Separator.Mirrors (sep : Separator) (src dst : Source) (φ : Nat → Nat) (B : Nat → Prop)
    (flags : Flags) : Prop :=
  ∀ ⦃p e⦄, B p → B e → Recognizer.Mirrors sep src dst φ p (some e) flags ∧
    ∀ span, sep.recognize src p (some e) flags = some span → B span.stop

/-- The same where `src` is read up to `e` and `dst` up to `f`. -/
def Separator.MirrorsUpTo (sep : Separator) (src : Source) (e : Nat) (dst : Source) (f : Nat)
    (φ : Nat → Nat) (B : Nat → Prop) (flags : Flags) : Prop :=
  ∀ ⦃p⦄, B p → sep.recognize dst (φ p) (some f) flags =
      (sep.recognize src p (some e) flags).map (Span.mapOffsets φ) ∧
    ∀ span, sep.recognize src p (some e) flags = some span → B span.stop

theorem Separator.Mirrors.upTo {sep : Separator} {src dst : Source} {φ : Nat → Nat}
    {B : Nat → Prop} {flags : Flags} (h : sep.Mirrors src dst φ B flags) {e : Nat} (he : B e) :
    sep.MirrorsUpTo src e dst (φ e) φ B flags :=
  fun _ hp => h hp he

namespace Reading

def image (r : Reading) (dst : Source) (f : Nat) : Reading := ⟨dst, r.flags, f⟩

/-- What `f` reads, `f'` reads at the image, and the offset after it has its image there. -/
def Mirrors {β : Type} (φ : Nat → Nat) (B : Nat → Prop) (f f' : Nat → Option (β × Nat)) : Prop :=
  ∀ ⦃p⦄, B p → f' (φ p) = (f p).map (Prod.map id φ) ∧ ∀ x next, f p = some (x, next) → B next

section Combinators

variable {β γ : Type} {φ : Nat → Nat} {B : Nat → Prop} {f f' : Nat → Option (β × Nat)}

theorem mirrors_some (x : β) : Mirrors φ B (fun p => some (x, p)) (fun p => some (x, p)) := by
  intro p hp
  refine ⟨rfl, ?_⟩
  intro y next h
  obtain ⟨_, rfl⟩ := Prod.mk.inj (Option.some.inj h)
  exact hp

theorem mirrors_none : Mirrors φ B (fun _ => (none : Option (β × Nat))) (fun _ => none) := by
  intro p _
  exact ⟨rfl, by simp⟩

theorem Mirrors.bind (hf : Mirrors φ B f f') {k k' : β → Nat → Option (γ × Nat)}
    (hk : ∀ x, Mirrors φ B (k x) (k' x)) :
    Mirrors φ B (fun p => (f p).bind fun x => k x.1 x.2)
      (fun p => (f' p).bind fun x => k' x.1 x.2) := by
  intro p hp
  obtain ⟨himage, hnext⟩ := hf hp
  simp only [himage]
  cases hx : f p with
  | none => simp
  | some x => exact hk x.1 (hnext x.1 x.2 hx)

theorem Mirrors.map (hf : Mirrors φ B f f') (k : β → γ) :
    Mirrors φ B (fun p => (f p).map (Prod.map k id)) (fun p => (f' p).map (Prod.map k id)) := by
  intro p hp
  obtain ⟨himage, hnext⟩ := hf hp
  constructor
  · simp only [himage]
    cases f p <;> rfl
  · intro y next h
    obtain ⟨⟨x, n⟩, hx, h⟩ := Option.map_eq_some_iff.1 h
    obtain ⟨_, rfl⟩ := Prod.mk.inj h
    exact hnext x n hx

theorem Mirrors.filter (hf : Mirrors φ B f f') (test : β → Bool) :
    Mirrors φ B (fun p => (f p).filter (test ·.1)) (fun p => (f' p).filter (test ·.1)) := by
  intro p hp
  obtain ⟨himage, hnext⟩ := hf hp
  constructor
  · simp only [himage]
    cases f p with
    | none => rfl
    | some x => by_cases hx : test x.1 = true <;> simp [Option.filter, hx]
  · intro x next h
    exact hnext x next (Option.filter_eq_some_iff.1 h).1

theorem Mirrors.or {g g' : Nat → Option (β × Nat)} (hf : Mirrors φ B f f')
    (hg : Mirrors φ B g g') :
    Mirrors φ B (fun p => (f p).or (g p)) (fun p => (f' p).or (g' p)) := by
  intro p hp
  constructor
  · simp only [(hf hp).1, (hg hp).1]
    cases f p <;> rfl
  · intro x next h
    rcases Option.or_eq_some_iff.1 h with h | ⟨_, h⟩
    · exact (hf hp).2 x next h
    · exact (hg hp).2 x next h

end Combinators

variable {r : Reading} {dst : Source} {f : Nat} {φ : Nat → Nat} {B : Nat → Prop}
  (h : r.source.MirrorsUpTo r.stop dst f φ B)

include h

theorem mirrors_char? : Mirrors φ B r.char? (r.image dst f).char? := by
  intro p hp
  simp only [char?, image, h.glyph?_image hp]
  cases hg : r.source.glyph? p r.stop with
  | none => simp
  | some g =>
    have hwidth := h.image_add_width hp hg
    have hnext := h.boundary_next hp hg
    simp only [Option.map_some, Option.bind_eq_bind, Option.bind_some, Glyph.single?_mirror,
      Option.pure_def, hwidth]
    constructor
    · cases g.single? <;> rfl
    · intro c next hc
      obtain ⟨_, _, hc⟩ := Option.bind_eq_some_iff.1 hc
      obtain ⟨_, rfl⟩ := Prod.mk.inj (Option.some.inj hc)
      exact hnext

theorem mirrors_letter? : Mirrors φ B r.letter? (r.image dst f).letter? := by
  have hcapital (c : Char) :
      Mirrors φ B (fun p => (capital? r.flags c).bind fun d => some (d, p))
        (fun p => (capital? r.flags c).bind fun d => some (d, p)) := by
    cases capital? r.flags c with
    | none => exact mirrors_none
    | some d => exact mirrors_some d
  exact (mirrors_char? h).bind hcapital

theorem mirrors_digit? : Mirrors φ B r.digit? (r.image dst f).digit? :=
  (mirrors_char? h).filter _

theorem mirrors_alnum? : Mirrors φ B r.alnum? (r.image dst f).alnum? :=
  (mirrors_digit? h).or (mirrors_letter? h)

theorem head?_image {p : Nat} (hp : B p) :
    (r.image dst f).head? (φ p) = (r.head? p).map (fun x => (x.1, x.2.1, φ x.2.2)) ∧
      ∀ x ∈ r.head? p, B x.2.2 := by
  have hletter := mirrors_letter? h
  have hdigit := mirrors_digit? h
  have hread := hletter.bind fun a => hletter.bind fun b => hdigit.bind fun c =>
    hdigit.bind fun d => mirrors_some (([a, b], [c, d]) : List Char × List Char)
  obtain ⟨himage, hnext⟩ := hread hp
  have hhead (s : Reading) (q : Nat) : s.head? q =
      ((s.letter? q).bind fun a => (s.letter? a.2).bind fun b => (s.digit? b.2).bind fun c =>
        (s.digit? c.2).bind fun d =>
          some ((([a.1, b.1], [c.1, d.1]) : List Char × List Char), d.2)).map
        fun x => (x.1.1, x.1.2, x.2) := by
    simp only [head?, Option.bind_eq_bind, Option.map_bind, Option.pure_def, Function.comp_def,
      Option.map_some]
  rw [hhead, hhead]
  simp only at himage
  rw [himage, Option.map_map, Option.map_map]
  constructor
  · rfl
  · intro x hx
    obtain ⟨y, hy, rfl⟩ := Option.map_eq_some_iff.1 hx
    exact hnext y.1 y.2 hy

theorem separator?_image {sep : Separator}
    (hsep : sep.MirrorsUpTo r.source r.stop dst f φ B r.flags) {p : Nat} (hp : B p) :
    (r.image dst f).separator? sep (φ p) = (r.separator? sep p).map φ ∧
      ∀ next, r.separator? sep p = some next → B next := by
  obtain ⟨himage, hstop⟩ := hsep hp
  simp only [separator?, image, himage]
  cases hs : sep.recognize r.source p (some r.stop) r.flags with
  | none => simp
  | some span =>
    have hend : B span.stop := hstop span hs
    have halnum := (mirrors_alnum? h hend).1
    rw [image] at halnum
    simp only [Option.map_some, Option.bind_eq_bind, Option.bind_some, Span.mapOffsets,
      h.lt_iff hp hend, halnum, Option.isSome_map]
    constructor
    · split <;> rfl
    · intro next hnext
      split at hnext
      · obtain rfl := Option.some.inj hnext
        exact hend
      · simp at hnext

theorem skip_image {sep : Separator} (hsep : sep.MirrorsUpTo r.source r.stop dst f φ B r.flags)
    {p : Nat} (hp : B p) :
    ((r.image dst f).separator? sep (φ p)).getD (φ p) = φ ((r.separator? sep p).getD p) ∧
      B ((r.separator? sep p).getD p) := by
  obtain ⟨himage, hnext⟩ := separator?_image h hsep hp
  rw [himage]
  cases hs : r.separator? sep p with
  | none => exact ⟨rfl, hp⟩
  | some next => exact ⟨rfl, hnext next hs⟩

end Reading

/-- What `read?` reads from a source, it reads from those that mirror the source and the separator
in it, at the image of the offset. -/
def Separator.MirrorsRead {α : Type} [MapOffsets α] (sep : Separator)
    (read? : Reading → Nat → Option α) : Prop :=
  ∀ ⦃r : Reading⦄ ⦃dst f φ B⦄, r.source.MirrorsUpTo r.stop dst f φ B →
    sep.MirrorsUpTo r.source r.stop dst f φ B r.flags → ∀ ⦃start⦄, B start →
      read? (r.image dst f) (φ start) = (read? r start).map (mapOffsets φ)

section Numbers

variable {r : Reading} {dst : Source} {f : Nat} {φ : Nat → Nat} {B : Nat → Prop}
  {sep : Separator} (h : r.source.MirrorsUpTo r.stop dst f φ B)

namespace Iban

theorem readBban_of_separator {r : Reading} {room pos next : Nat}
    (hsep : r.separator? sep pos = some next) :
    readBban r sep (room + 1) pos = readBban r sep (room + 1) next := by
  rw [readBban]
  split <;> simp_all

theorem readBban_of_none {r : Reading} {room pos : Nat} (hsep : r.separator? sep pos = none)
    (halnum : r.alnum? pos = none) : readBban r sep (room + 1) pos = ([], pos) := by
  rw [readBban]
  split
  · simp_all
  · split <;> simp_all

theorem readBban_of_alnum {r : Reading} {room pos next : Nat} {c : Char}
    (hsep : r.separator? sep pos = none) (halnum : r.alnum? pos = some (c, next)) :
    readBban r sep (room + 1) pos =
      (c :: (readBban r sep room next).1, (readBban r sep room next).2) := by
  rw [readBban]
  split
  · simp_all
  · split <;> simp_all

include h

theorem readBban_image (hsep : sep.MirrorsUpTo r.source r.stop dst f φ B r.flags)
    (room : Nat) {pos : Nat} (hpos : B pos) :
    readBban (r.image dst f) sep room (φ pos) = Prod.map id φ (readBban r sep room pos) ∧
      B (readBban r sep room pos).2 := by
  -- A separator takes up no room, so the induction follows the reading and not `room`.
  fun_induction readBban r sep room pos with
  | case1 pos =>
    rw [readBban]
    exact ⟨rfl, hpos⟩
  | case2 pos room next hnext ih =>
    obtain ⟨himage, hin⟩ := Reading.separator?_image h hsep hpos
    rw [hnext] at himage
    rw [readBban_of_separator himage]
    exact ih (hin next hnext)
  | case3 pos room hnone halnum =>
    obtain ⟨himage, _⟩ := Reading.separator?_image h hsep hpos
    have hread := (Reading.mirrors_alnum? h hpos).1
    rw [hnone] at himage
    rw [halnum] at hread
    rw [readBban_of_none himage hread]
    exact ⟨rfl, hpos⟩
  | case4 pos room hnone c next halnum rest ih =>
    obtain ⟨himage, _⟩ := Reading.separator?_image h hsep hpos
    obtain ⟨hread, hin⟩ := Reading.mirrors_alnum? h hpos
    obtain ⟨hrest, hstop⟩ := ih (hin c next halnum)
    rw [hnone] at himage
    rw [halnum] at hread
    rw [readBban_of_alnum himage hread, hrest]
    exact ⟨rfl, hstop⟩

omit h in
theorem mirrorsRead : sep.MirrorsRead (read? · sep) := by
  intro r dst f φ B h hsep start hstart
  obtain ⟨himage, hin⟩ := Reading.head?_image h hstart
  dsimp only
  rw [read?, read?, himage]
  cases hhead : r.head? start with
  | none => rfl
  | some x =>
    obtain ⟨country, digits, pos⟩ := x
    obtain ⟨hbban, _⟩ := readBban_image h hsep (room country) (hin _ hhead)
    simp only [Option.map_some, Option.bind_eq_bind, Option.bind_some, hbban, Prod.map_fst,
      Prod.map_snd, id_eq]
    split <;> rfl

end Iban

namespace CreditorReference

/-- Where the letters and digits go on, after a separator if a group begins. -/
def groupStart (r : Reading) (sep : Separator) (count pos : Nat) : Nat :=
  if count % groupLength = 0 then (r.separator? sep pos).getD pos else pos

theorem readFrom_zero (r : Reading) (sep : Separator) (count pos : Nat) :
    readFrom r sep 0 count pos =
      match r.alnum? (groupStart r sep count pos) with
      | none => some ([], groupStart r sep count pos)
      | some _ => none := by
  rw [readFrom, groupStart]
  cases r.alnum? (if count % groupLength = 0 then (r.separator? sep pos).getD pos else pos) <;> rfl

theorem readFrom_succ (r : Reading) (sep : Separator) (room count pos : Nat) :
    readFrom r sep (room + 1) count pos =
      match r.alnum? (groupStart r sep count pos) with
      | none => some ([], groupStart r sep count pos)
      | some x => (readFrom r sep room (count + 1) x.2).map (Prod.map (x.1 :: ·) id) := by
  rw [readFrom, groupStart]
  cases r.alnum? (if count % groupLength = 0 then (r.separator? sep pos).getD pos else pos) <;> rfl

include h

theorem groupStart_image (hsep : sep.MirrorsUpTo r.source r.stop dst f φ B r.flags)
    {pos : Nat} (hpos : B pos) (count : Nat) :
    groupStart (r.image dst f) sep count (φ pos) = φ (groupStart r sep count pos) ∧
      B (groupStart r sep count pos) := by
  rw [groupStart, groupStart]
  by_cases hcount : count % groupLength = 0
  · rw [if_pos hcount, if_pos hcount]
    exact Reading.skip_image h hsep hpos
  · rw [if_neg hcount, if_neg hcount]
    exact ⟨rfl, hpos⟩

theorem mirrors_readFrom (hsep : sep.MirrorsUpTo r.source r.stop dst f φ B r.flags)
    (room count : Nat) :
    Reading.Mirrors φ B (readFrom r sep room count) (readFrom (r.image dst f) sep room count) := by
  induction room generalizing count with
  | zero =>
    intro p hp
    obtain ⟨hgroup, hq⟩ := groupStart_image h hsep hp count
    rw [readFrom_zero, readFrom_zero, hgroup, (Reading.mirrors_alnum? h hq).1]
    cases r.alnum? (groupStart r sep count p) with
    | none => exact Reading.mirrors_some [] hq
    | some x => exact Reading.mirrors_none hq
  | succ room ih =>
    intro p hp
    obtain ⟨hgroup, hq⟩ := groupStart_image h hsep hp count
    obtain ⟨hread, hnext⟩ := Reading.mirrors_alnum? h hq
    rw [readFrom_succ, readFrom_succ, hgroup, hread]
    cases hx : r.alnum? (groupStart r sep count p) with
    | none => exact Reading.mirrors_some [] hq
    | some x =>
      exact (ih (count + 1)).map (x.1 :: ·) (hnext x.1 x.2 hx)

omit h in
theorem mirrorsRead : sep.MirrorsRead (read? · sep) := by
  intro r dst f φ B h hsep start hstart
  obtain ⟨himage, hin⟩ := Reading.head?_image h hstart
  dsimp only
  rw [read?, read?, himage]
  cases hhead : r.head? start with
  | none => rfl
  | some x =>
    obtain ⟨letters, digits, pos⟩ := x
    obtain ⟨hread, _⟩ := mirrors_readFrom h hsep width 0 (hin _ hhead)
    simp only [Option.map_some, Option.bind_eq_bind, Option.bind_some, hread]
    by_cases hletters : letters = ['R', 'F']
    · rw [if_neg (not_not_intro hletters), if_neg (not_not_intro hletters)]
      cases readFrom r sep width 0 pos with
      | none => rfl
      | some y =>
        obtain ⟨cs, stop⟩ := y
        simp only [Option.map_some, Option.bind_some, Prod.map_apply, id_eq]
        split <;> rfl
    · rw [if_pos hletters, if_pos hletters]
      rfl

end CreditorReference

namespace SiReference

theorem digitsFrom_eq (r : Reading) (pos : Nat) :
    digitsFrom r pos =
      match r.digit? pos with
      | none => ([], pos)
      | some (c, next) => (c :: (digitsFrom r next).1, (digitsFrom r next).2) := by
  rw [digitsFrom]
  split <;> simp_all

include h

theorem digitsFrom_image {pos : Nat} (hpos : B pos) :
    digitsFrom (r.image dst f) (φ pos) = Prod.map id φ (digitsFrom r pos) ∧
      B (digitsFrom r pos).2 := by
  fun_induction digitsFrom r pos with
  | case1 pos hnone =>
    rw [digitsFrom_eq, (Reading.mirrors_digit? h hpos).1, hnone]
    exact ⟨rfl, hpos⟩
  | case2 pos c next hdigit rest ih =>
    obtain ⟨hread, hin⟩ := Reading.mirrors_digit? h hpos
    obtain ⟨hrest, hstop⟩ := ih (hin c next hdigit)
    rw [digitsFrom_eq, hread, hdigit]
    simp only [Option.map_some, Prod.map_apply, id_eq, hrest]
    exact ⟨rfl, hstop⟩

theorem part?_image {pos : Nat} (hpos : B pos) :
    part? (r.image dst f) (φ pos) = (part? r pos).map (Part.mapOffsets φ) ∧
      ∀ p, part? r pos = some p → B p.span.stop := by
  obtain ⟨himage, hstop⟩ := digitsFrom_image h hpos
  rw [part?, part?, himage]
  simp only [Prod.map_fst, id_eq]
  constructor
  · split <;> rfl
  · intro p hp
    split at hp
    · simp at hp
    · obtain rfl := Option.some.inj hp
      exact hstop

theorem dash?_image {pos : Nat} (hpos : B pos) :
    dash? (r.image dst f) (φ pos) = (dash? r pos).map φ ∧
      ∀ next, dash? r pos = some next → B next := by
  obtain ⟨himage, hnext⟩ := (Reading.mirrors_char? h).filter (· == '-') hpos
  simp only at himage
  rw [dash?, dash?, himage]
  constructor
  · simp [Function.comp_def]
  · intro next hdash
    obtain ⟨⟨c, n⟩, hc, rfl⟩ := Option.map_eq_some_iff.1 hdash
    exact hnext c n hc

theorem partsFrom_image {count pos : Nat} (hpos : B pos) :
    partsFrom (r.image dst f) count (φ pos) =
      (partsFrom r count pos).map (Part.mapOffsets φ) := by
  induction count generalizing pos with
  | zero => rfl
  | succ count ih =>
    obtain ⟨hpart, hstop⟩ := part?_image h hpos
    rw [partsFrom, partsFrom, hpart]
    cases hp : part? r pos with
    | none => rfl
    | some p =>
      obtain ⟨hdash, hnext⟩ := dash?_image h (hstop p hp)
      simp only [Option.map_some, List.map_cons, Part.mapOffsets, Span.mapOffsets, hdash]
      cases hd : dash? r p.span.stop with
      | none => rfl
      | some next => simp [ih (hnext next hd)]

omit h in
theorem mirrorsRead : sep.MirrorsRead (read? · sep) := by
  intro r dst f φ B h hsep start hstart
  obtain ⟨himage, hin⟩ := Reading.head?_image h hstart
  dsimp only
  rw [read?, read?, himage]
  cases hhead : r.head? start with
  | none => rfl
  | some x =>
    obtain ⟨letters, model, pos⟩ := x
    obtain ⟨hskip, hnext⟩ := Reading.skip_image h hsep (hin _ hhead)
    simp only [Option.map_some, Option.bind_eq_bind, Option.bind_some, hskip,
      partsFrom_image h hnext]
    by_cases hletters : letters = ['S', 'I']
    · rw [if_neg (not_not_intro hletters), if_neg (not_not_intro hletters)]
      by_cases hmodel : model = ['9', '9']
      · rw [if_pos hmodel, if_pos hmodel]
        rfl
      · rw [if_neg hmodel, if_neg hmodel]
        generalize partsFrom r 3 ((r.separator? sep pos).getD pos) = parts
        have hdigits : (parts.map (Part.mapOffsets φ)).map Part.digits = parts.map Part.digits := by
          rw [List.map_map]
          rfl
        have hstop : ((parts.map (Part.mapOffsets φ)).getLast?.map (·.span.stop)).getD (φ pos) =
            φ ((parts.getLast?.map (·.span.stop)).getD pos) := by
          rw [List.getLast?_map]
          cases parts.getLast? <;> rfl
        rw [hdigits, hstop]
        rfl
    · rw [if_pos hletters, if_pos hletters]
      rfl

end SiReference

end Numbers

section Recognizers

variable {α : Type} [MapOffsets α] {read? : Reading → Nat → Option α} {span : α → Span}
  {src dst : Source} {φ : Nat → Nat} {B : Nat → Prop} {sep : Separator} {flags : Flags}
  {start : Nat} {stop : Option Nat}

theorem Separator.MirrorsRead.recognizer_image (hread : sep.MirrorsRead read?) {e f : Nat}
    (h : src.MirrorsUpTo e dst f φ B) (hsep : sep.MirrorsUpTo src e dst f φ B flags)
    (hstart : B start) {stop' : Option Nat} (hstop : src.limit stop = e)
    (hstop' : dst.limit stop' = f) :
    (Reading.recognizer read? span).recognize dst (φ start) stop' flags =
      ((Reading.recognizer read? span).recognize src start stop flags).map (mapOffsets φ) := by
  simp only [Reading.recognizer, hstop, hstop']
  exact hread (r := ⟨src, flags, e⟩) h hsep hstart

theorem Separator.MirrorsRead.mirrors_recognizer (hread : sep.MirrorsRead read?)
    (h : src.Mirrors dst φ B) (hsep : sep.Mirrors src dst φ B flags) (hstart : B start)
    (hstop : ∀ e ∈ stop, B e) :
    (Reading.recognizer read? span).Mirrors src dst φ start stop flags := by
  have he := h.boundary_limit hstop
  exact hread.recognizer_image (h.upTo he) (hsep.upTo he) hstart rfl (h.limit_image hstop)

end Recognizers

namespace Separator

/-- The separators that may be chosen. -/
inductive Offered : Separator → Prop
  | none : Offered .none
  | space : Offered .space
  /-- What a rule of a grammar matches. -/
  | rule (g : Grammar) (id : Nat) : Offered (g.rule id).spans

variable {src dst : Source} {e f : Nat} {φ : Nat → Nat} {B : Nat → Prop} {flags : Flags}

section UpTo

variable (h : src.MirrorsUpTo e dst f φ B) (he : e ≤ src.size) (hf : f ≤ dst.size)

theorem mirrorsUpTo_none : Separator.none.MirrorsUpTo src e dst f φ B flags := by
  intro p _
  exact ⟨rfl, by simp [Separator.none]⟩

include h he hf

theorem mirrorsUpTo_space (flags : Flags) :
    Separator.space.MirrorsUpTo src e dst f φ B flags := by
  intro p hp
  have hlimit : src.limit (some e) = e := Nat.min_eq_left he
  have hlimit' : dst.limit (some f) = f := Nat.min_eq_left hf
  simp only [Separator.space, hlimit, hlimit', h.glyph?_image hp]
  cases hg : src.glyph? p e with
  | none => simp
  | some g =>
    have hnext := h.boundary_next hp hg
    simp only [Option.map_some, Glyph.single?_mirror, h.image_add_width hp hg]
    constructor
    · split <;> rfl
    · intro span hspan
      split at hspan
      · obtain rfl := Option.some.inj hspan
        exact hnext
      · obtain rfl := Option.some.inj hspan
        exact hnext
      · simp at hspan

theorem mirrorsUpTo_rule (g : Grammar) {id : Nat}
    (hlines : g.AnchorFree id ∨ src.MirrorsLinesUpTo e dst f φ B) :
    Separator.MirrorsUpTo (g.rule id).spans src e dst f φ B flags := by
  intro p hp
  have hlimit : src.limit (some e) = e := Nat.min_eq_left he
  have hlimit' : dst.limit (some f) = f := Nat.min_eq_left hf
  have hmatch : (g.rule id).recognize dst (φ p) (some f) flags = _ :=
    g.rule_image h hlines hp hlimit hlimit'
  constructor
  · simp only [Recognizer.spans, hmatch, Option.map_map]
    congr 1
    funext m
    exact Match.span_mapOffsets φ m
  · intro span hspan
    obtain ⟨m, hm, rfl⟩ := Option.map_eq_some_iff.1 hspan
    exact g.boundary_of_rule h hlines hp hlimit hm

theorem Offered.mirrorsUpTo {sep : Separator} (hsep : sep.Offered)
    (hlines : src.MirrorsLinesUpTo e dst f φ B) (flags : Flags) :
    sep.MirrorsUpTo src e dst f φ B flags := by
  cases hsep with
  | none => exact mirrorsUpTo_none
  | space => exact mirrorsUpTo_space h he hf flags
  | rule g id => exact mirrorsUpTo_rule h he hf g (.inr hlines)

end UpTo

theorem mirrors_space (h : src.Mirrors dst φ B) (flags : Flags) :
    Separator.space.Mirrors src dst φ B flags := by
  intro p e hp he
  exact mirrorsUpTo_space (h.upTo he) (h.le_size he) (h.image_le_size he) flags hp

theorem Offered.mirrors {sep : Separator} (hsep : sep.Offered) (h : src.Mirrors dst φ B)
    (hlines : src.MirrorsLines dst φ B) (flags : Flags) : sep.Mirrors src dst φ B flags := by
  intro p e hp he
  exact hsep.mirrorsUpTo (h.upTo he) (h.le_size he) (h.image_le_size he) (hlines.upTo he) flags hp

end Separator

end Payment

end Recognition
