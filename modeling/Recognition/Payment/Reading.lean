import Recognition.Recognizer

namespace Recognition.Payment

structure Reading where
  source : Source
  flags : Flags
  stop : Nat

/-- What may stand between groups. -/
abbrev Separator := Recognizer Span

namespace Separator

/-- A space or a no-break space. -/
def space : Separator where
  recognize src start stop _ :=
    match src.glyph? start (src.limit stop) with
    | none => none
    | some g =>
      match g.single? with
      | some ' ' | some '\u00A0' => some ⟨start, start + g.width⟩
      | _ => none
  span := id

def none : Separator := ⟨fun _ _ _ _ => .none, id⟩

end Separator

namespace Reading

variable (r : Reading)

def char? (pos : Nat) : Option (Char × Nat) := do
  let g ← r.source.glyph? pos r.stop
  let c ← g.single?
  return (c, pos + g.width)

/-- The capital that a character is read as. A small letter is read as one if case does not matter.
-/
def capital? (flags : Flags) (c : Char) : Option Char :=
  let c := if flags.ignoreCase then c.toUpper else c
  if c.isUpper then some c else none

def letter? (pos : Nat) : Option (Char × Nat) := do
  let (c, next) ← r.char? pos
  let c ← capital? r.flags c
  return (c, next)

def digit? (pos : Nat) : Option (Char × Nat) := (r.char? pos).filter (·.1.isDigit)

def alnum? (pos : Nat) : Option (Char × Nat) := (r.digit? pos).or (r.letter? pos)

/-- The offset after a separator at `pos` that a letter or a digit follows. -/
def separator? (sep : Separator) (pos : Nat) : Option Nat := do
  let span ← sep.recognize r.source pos (some r.stop) r.flags
  if pos < span.stop ∧ (r.alnum? span.stop).isSome then some span.stop else none

def head? (pos : Nat) : Option (List Char × List Char × Nat) := do
  let (a, pos) ← r.letter? pos
  let (b, pos) ← r.letter? pos
  let (c, pos) ← r.digit? pos
  let (d, pos) ← r.digit? pos
  return ([a, b], [c, d], pos)

/-- Finds what `read?` reads from an offset of the source up to the bound. -/
def recognizer {α : Type} (read? : Reading → Nat → Option α) (span : α → Span) :
    Recognizer α where
  recognize src start stop flags := read? ⟨src, flags, src.limit stop⟩ start
  span := span

variable {r}

theorem char?_bounds {pos next : Nat} {c : Char} (h : r.char? pos = some (c, next)) :
    pos < next ∧ next ≤ r.stop := by
  simp only [char?, Option.bind_eq_bind, Option.bind_eq_some_iff, Option.pure_def] at h
  obtain ⟨g, hg, _, _, h⟩ := h
  obtain ⟨_, rfl⟩ := Prod.mk.inj (Option.some.inj h)
  have := Source.glyph?_bounds hg
  omega

theorem letter?_bounds {pos next : Nat} {c : Char} (h : r.letter? pos = some (c, next)) :
    pos < next ∧ next ≤ r.stop := by
  simp only [letter?, Option.bind_eq_bind, Option.bind_eq_some_iff, Option.pure_def] at h
  obtain ⟨⟨x, n⟩, hx, _, _, h⟩ := h
  obtain ⟨_, rfl⟩ := Prod.mk.inj (Option.some.inj h)
  exact char?_bounds hx

theorem digit?_bounds {pos next : Nat} {c : Char} (h : r.digit? pos = some (c, next)) :
    pos < next ∧ next ≤ r.stop :=
  char?_bounds (Option.filter_eq_some_iff.1 h).1

theorem alnum?_bounds {pos next : Nat} {c : Char} (h : r.alnum? pos = some (c, next)) :
    pos < next ∧ next ≤ r.stop := by
  rcases Option.or_eq_some_iff.1 h with h | ⟨_, h⟩
  · exact digit?_bounds h
  · exact letter?_bounds h

theorem separator?_bounds {sep : Separator} {pos next : Nat}
    (h : r.separator? sep pos = some next) : pos < next ∧ next < r.stop := by
  simp only [separator?, Option.bind_eq_bind, Option.bind_eq_some_iff] at h
  obtain ⟨span, _, h⟩ := h
  split at h
  · rename_i hs
    obtain rfl := Option.some.inj h
    obtain ⟨⟨c, after⟩, hc⟩ := Option.isSome_iff_exists.1 hs.2
    have := alnum?_bounds hc
    omega
  · simp at h

end Reading

end Recognition.Payment
