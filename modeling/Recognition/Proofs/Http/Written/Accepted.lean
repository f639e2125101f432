import Recognition.Http.Element
import Recognition.Proofs.Http.Written.Parameter

namespace Recognition.Http

open Window

/-- Letters, in components joined by hyphens. -/
structure LanguageForm where
  components : List (List UInt8)
  ne_nil : components ≠ []
  component_ne_nil : ∀ c ∈ components, c ≠ []
  letters : ∀ c ∈ components, ∀ b ∈ c, isLetter b = true

/-- A type and a subtype with `/` between them, and white space around that. -/
structure MediaRangeForm where
  type : TokenForm
  before : List Fold
  after : List Fold
  subtype : TokenForm

/-- White space at most stands before a semicolon, a comma or the end. -/
def Delimited (rest : List UInt8) : Prop :=
  Stops (fun b => b != Byte.semicolon && b != Byte.comma) (rest.dropWhile isSpace)

variable {pos : Nat} {rest : List UInt8}

namespace Delimited

def first : List UInt8 := Byte.semicolon :: Byte.comma :: spaces

theorem semicolon (rest : List UInt8) : Delimited (Byte.semicolon :: rest) :=
  Stops.cons_iff.2 (by decide)

theorem append {gap : List UInt8} (hgap : ∀ b ∈ gap, isSpace b = true) (h : Delimited rest) :
    Delimited (gap ++ rest) := by
  rw [Delimited, List.dropWhile_append_of_pos hgap]
  exact h

theorem mem_first {b : UInt8} (h : Delimited (b :: rest)) : b ∈ first := by
  by_cases hb : isSpace b = true
  · exact List.mem_cons_of_mem _ (List.mem_cons_of_mem _ (mem_spaces hb))
  · rw [Delimited, List.dropWhile_cons_of_neg hb, Stops.cons_iff] at h
    have hdelimiter : b = Byte.semicolon ∨ b = Byte.comma := by
      by_contra hne
      simp_all
    rcases hdelimiter with rfl | rfl <;> decide

theorem stops {p : UInt8 → Bool} (hp : first.any p = false) (h : Delimited rest) :
    Stops p rest := by
  cases rest with
  | nil => exact Stops.nil p
  | cons b bs => simpa [Stops.cons_iff] using List.any_eq_false.1 hp b h.mem_first

theorem eq_false_of_disjoint {p : UInt8 → Bool} (hp : first.any p = false) {b : UInt8}
    (hb : p b = true) : (isSpace b || b == Byte.comma) = false := by
  simp only [first, List.any_cons, Bool.or_eq_false_iff] at hp
  obtain ⟨-, hcomma, hspaces⟩ := hp
  have hne : b ≠ Byte.comma := by
    rintro rfl
    rw [hcomma] at hb
    cases hb
  simp [isSpace_eq_false hspaces hb, hne]

theorem endsWeight (h : Delimited rest) : Weighted.endsWeight ⟨pos, rest⟩ = true := by
  have hstops : Stops (fun b => !(b == Byte.semicolon || b == Byte.comma || isSpace b)) rest :=
    h.stops (by decide)
  cases rest with
  | nil => rfl
  | cons b bs =>
    have hb := Stops.cons_iff.1 hstops
    rw [Bool.not_eq_false'] at hb
    exact hb

theorem drop_foldCount (h : Delimited rest) : Delimited (rest.drop (foldCount rest)) := by
  induction rest with
  | nil => exact h
  | cons b bs ih =>
    rw [foldCount]
    split
    · rename_i hfold
      have hb : isSpace b = true := by
        by_contra hb
        rw [foldsAt_of_stops (Stops.cons_iff.2 (by simpa using hb))] at hfold
        cases hfold
      rw [Delimited, List.dropWhile_cons_of_pos hb] at h
      exact ih h
    · exact h

theorem eat?_skipFolds {b : UInt8} (hb : b ∉ first) (h : Delimited rest) :
    (⟨pos, rest⟩ : Window).skipFolds.eat? b = none := by
  have hstops : Stops (· == b) (rest.drop (foldCount rest)) := by
    refine h.drop_foldCount.stops ?_
    rw [List.any_eq_false]
    intro c hc hcb
    exact hb (beq_iff_eq.1 hcb ▸ hc)
  exact eat?_of_stops (p := (· == b)) (beq_self_eq_true b) hstops

end Delimited

namespace LanguageForm

def bytes (l : LanguageForm) : List UInt8 := joined Byte.hyphen id l.components

def language (pos : Nat) (l : LanguageForm) : Language :=
  ⟨.over pos l.bytes, inJoin Byte.hyphen id .over pos l.components⟩

theorem reads (l : LanguageForm) :
    Http.language.Reads (Stops fun b => isLetter b || b == Byte.hyphen) l.bytes l.language := by
  intro pos rest hrest
  have hletter : Stops isLetter rest := hrest.mono fun b hb => by simp [hb]
  have hhyphen : ∀ pos, ((Reader.run isLetter).after Byte.hyphen).read ⟨pos, rest⟩ = none := by
    intro pos
    have hnone : (⟨pos, rest⟩ : Window).eat? Byte.hyphen = none := eat?_of_stops (by decide) hrest
    simp only [Reader.after, hnone]
    rfl
  obtain ⟨c, cs, hcomponents⟩ := List.exists_cons_of_ne_nil l.ne_nil
  have hcomponent : ∀ d ∈ c :: cs, (Reader.run isLetter).Reads (Stops isLetter) d (.over · d) := by
    intro d hd pos rest
    rw [← hcomponents] at hd
    exact run?_append (l.component_ne_nil d hd) (l.letters d hd)
  have hstops : Stops isLetter (cs.flatMap (Byte.hyphen :: ·) ++ rest) :=
    hletter.flatMap (by decide) cs
  have hfirst := hcomponent c (by simp) pos _ hstops
  have hmany := Reader.Reads.many
    (fun d hd => (hcomponent d (List.mem_cons_of_mem c hd)).after Byte.hyphen)
    (fun d _ tail => Stops.cons_iff.2 (by decide)) hletter hhyphen (pos + c.length)
  have hbytes : l.bytes ++ rest = c ++ (cs.flatMap (Byte.hyphen :: ·) ++ rest) := by
    rw [bytes, hcomponents, joined, List.append_assoc]
    rfl
  have hend : pos + c.length + (cs.flatMap (Byte.hyphen :: ·)).length = pos + l.bytes.length := by
    rw [bytes, hcomponents, joined, List.length_append, Nat.add_assoc]
    rfl
  simp only [Reader.run] at hfirst
  simp only [Http.language, hbytes, hfirst, Option.bind_eq_bind, Option.bind_some, hmany, hend]
  rw [language, hcomponents]
  rfl

theorem stops_bytes (l : LanguageForm) (rest : List UInt8) :
    Stops (fun b => isSpace b || b == Byte.comma) (l.bytes ++ rest) := by
  obtain ⟨c, cs, hcomponents⟩ := List.exists_cons_of_ne_nil l.ne_nil
  have hc : c ∈ l.components := by simp [hcomponents]
  rw [bytes, hcomponents, joined, List.append_assoc]
  exact .append (l.component_ne_nil c hc) fun b hb =>
    Delimited.eq_false_of_disjoint (by decide) (l.letters c hc b (List.mem_of_mem_head? hb))

theorem nul_notMem (l : LanguageForm) : 0 ∉ l.bytes := by
  have hne : ∀ b ∈ l.bytes, b ≠ 0 := by
    refine forall_mem_joined (by decide) fun c hc b hb => ?_
    rintro rfl
    exact absurd (l.letters c hc 0 hb) (by decide)
  exact fun h => hne 0 h rfl

end LanguageForm

namespace MediaRangeForm

def subtypeBytes (m : MediaRangeForm) : List UInt8 :=
  Fold.all m.before ++ Byte.slash :: (Fold.all m.after ++ m.subtype.bytes)

def bytes (m : MediaRangeForm) : List UInt8 := m.type.bytes ++ m.subtypeBytes

def subtypePos (pos : Nat) (m : MediaRangeForm) : Nat :=
  pos + m.type.bytes.length + (Fold.all m.before).length + 1 + (Fold.all m.after).length

def range (pos : Nat) (m : MediaRangeForm) : MediaRange :=
  ⟨.over pos m.bytes, .over pos m.type.bytes, .over (m.subtypePos pos) m.subtype.bytes⟩

theorem reads (m : MediaRangeForm) : Http.mediaRange.Reads (Stops isTokenByte) m.bytes m.range := by
  intro pos rest hrest
  have htype : Stops isTokenByte (m.subtypeBytes ++ rest) := by
    rw [subtypeBytes, List.append_assoc]
    exact Fold.stops_token m.before (Stops.cons_iff.2 (by decide))
  have hsubtype := m.subtype.reads.afterFolded m.before m.after
    (by decide : isSpace Byte.slash = false) m.subtype.stops_isSpace
    (pos + m.type.bytes.length) rest hrest
  have hend : pos + m.type.bytes.length + m.subtypeBytes.length = pos + m.bytes.length := by
    rw [bytes, List.length_append, Nat.add_assoc]
  rw [← subtypeBytes, hend] at hsubtype
  have hbytes : m.bytes ++ rest = m.type.bytes ++ (m.subtypeBytes ++ rest) :=
    List.append_assoc _ _ _
  simp only [Http.mediaRange, hbytes, m.type.reads pos _ htype, Option.bind_eq_bind,
    Option.bind_some, hsubtype]
  rfl

theorem nul_notMem (m : MediaRangeForm) : 0 ∉ m.bytes := by
  simp [bytes, subtypeBytes, m.type.nul_notMem, m.subtype.nul_notMem, Fold.nul_notMem, Byte.slash]

theorem bytes_spans {text : List UInt8} (m : MediaRangeForm) (h : StandsAt text pos m.bytes) :
    [(m.range pos).type, (m.range pos).subtype].map (·.bytes text) =
      [m.type.bytes, m.subtype.bytes] := by
  obtain ⟨htype, hlater⟩ := StandsAt.append_iff.1 h
  have hsubtype := (StandsAt.append_iff.1 (StandsAt.append_iff.1 hlater).2.tail).2
  exact congrArg₂ (fun s t => [s, t]) htype.bytes_over hsubtype.bytes_over

end MediaRangeForm

/-- What a client may say it accepts, in order of preference. -/
inductive Accepted where
  | language | mediaRange
deriving DecidableEq, Repr

namespace Accepted

@[reducible] def element : Accepted → Element
  | language => .language
  | mediaRange => .mediaRange

@[reducible] def Form : Accepted → Type
  | language => LanguageForm
  | mediaRange => MediaRangeForm

def bytes : (e : Accepted) → e.Form → List UInt8
  | language, l => l.bytes
  | mediaRange, m => m.bytes

def place : (e : Accepted) → Nat → e.Form → e.element.Result
  | language, pos, l => l.language pos
  | mediaRange, pos, m => m.range pos

/-- The ranges of the parts: the components of a language, the type and the subtype of a media
range. -/
def spans : (e : Accepted) → e.element.Result → List Span
  | language, l => l.components
  | mediaRange, m => [m.type, m.subtype]

def parts : (e : Accepted) → e.Form → List (List UInt8)
  | language, l => l.components
  | mediaRange, m => [m.type.bytes, m.subtype.bytes]

variable (e : Accepted) (x : e.Form)

theorem reads : e.element.reader.Reads Delimited (e.bytes x) (e.place · x) := by
  cases e with
  | language => exact LanguageForm.reads x |>.mono fun rest h => h.stops (by decide)
  | mediaRange => exact MediaRangeForm.reads x |>.mono fun rest h => h.stops (by decide)

theorem read_asterisk (h : Delimited rest) :
    e.element.reader.read ⟨pos, Byte.asterisk :: rest⟩ = none := by
  -- An asterisk alone is no media range, for there is no slash after it.
  cases e with
  | language => rfl
  | mediaRange =>
    let asterisk : TokenForm :=
      ⟨[Byte.asterisk], List.cons_ne_nil _ _, List.forall_mem_singleton.2 (by decide)⟩
    have hsubtype : ∀ pos, (Http.token.afterFolded Byte.slash).read ⟨pos, rest⟩ = none := by
      intro pos
      simp only [Reader.afterFolded, h.eat?_skipFolds (by decide : Byte.slash ∉ Delimited.first)]
      rfl
    show Http.mediaRange.read ⟨pos, asterisk.bytes ++ rest⟩ = none
    simp only [Http.mediaRange, asterisk.reads pos rest (h.stops (by decide)), Option.bind_eq_bind,
      Option.bind_some, hsubtype]
    rfl

theorem stops_bytes (rest : List UInt8) :
    Stops (fun b => isSpace b || b == Byte.comma) (e.bytes x ++ rest) := by
  cases e with
  | language => exact LanguageForm.stops_bytes x rest
  | mediaRange =>
    rw [bytes, MediaRangeForm.bytes, List.append_assoc]
    exact x.type.stops (fun b => Delimited.eq_false_of_disjoint (by decide)) _

theorem nul_notMem : 0 ∉ e.bytes x := by
  cases e with
  | language => exact LanguageForm.nul_notMem x
  | mediaRange => exact MediaRangeForm.nul_notMem x

theorem bytes_spans {text : List UInt8} (h : StandsAt text pos (e.bytes x)) :
    (e.spans (e.place pos x)).map (·.bytes text) = e.parts x := by
  cases e with
  | language =>
    exact (map_inJoin (g := id) (fun c _ _ hc => hc.bytes_over) h).trans (List.map_id _)
  | mediaRange => exact MediaRangeForm.bytes_spans x h

end Accepted

end Recognition.Http
