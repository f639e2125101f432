namespace Recognition

/-- A logical character: a scalar, perhaps with a combining mark, and the number of code units it
takes in the text. -/
structure Glyph where
  base : Char
  mark : Option Char
  width : Nat
deriving DecidableEq, Repr

namespace Glyph

/-- What stands for code units that are no character. -/
def replacement : Glyph := ⟨'\uFFFD', none, 1⟩

def scalars (g : Glyph) : List Char := g.base :: g.mark.toList

def single? (g : Glyph) : Option Char :=
  if g.mark.isSome then none else some g.base

def ofScalars? (cs : List Char) (width : Nat) : Option Glyph :=
  match cs with
  | [c] => some ⟨c, none, width⟩
  | [c, m] => some ⟨c, some m, width⟩
  | _ => none

theorem ofScalars?_scalars (g : Glyph) : ofScalars? g.scalars g.width = some g := by
  obtain ⟨b, m, w⟩ := g
  cases m <;> rfl

theorem ofScalars?_eq_some_iff {cs : List Char} {width : Nat} {g : Glyph} :
    ofScalars? cs width = some g ↔ g.scalars = cs ∧ g.width = width := by
  constructor
  · intro h
    match cs, h with
    | [_], rfl => exact ⟨rfl, rfl⟩
    | [_, _], rfl => exact ⟨rfl, rfl⟩
  · rintro ⟨rfl, rfl⟩
    exact ofScalars?_scalars g

theorem exists_of_length {cs : List Char} (h : cs.length = 1 ∨ cs.length = 2) (width : Nat) :
    ∃ g : Glyph, g.scalars = cs ∧ g.width = width := by
  match cs, h with
  | [c], _ => exact ⟨⟨c, none, width⟩, rfl, rfl⟩
  | [c, m], _ => exact ⟨⟨c, some m, width⟩, rfl, rfl⟩

theorem single?_eq_some_iff {g : Glyph} {c : Char} : g.single? = some c ↔ g.scalars = [c] := by
  obtain ⟨b, m, w⟩ := g
  cases m <;> simp [single?, scalars]

theorem scalars_length_pos (g : Glyph) : 0 < g.scalars.length := by
  simp [scalars]

theorem scalars_length_le (g : Glyph) : g.scalars.length ≤ 2 := by
  obtain ⟨b, m, w⟩ := g
  cases m <;> simp [scalars]

end Glyph

end Recognition
