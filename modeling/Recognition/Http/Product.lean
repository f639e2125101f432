import Recognition.Http.Reader

namespace Recognition.Http

/-- A language tag: letters, in components joined by hyphens. -/
structure Language where
  span : Span
  components : List Span
deriving DecidableEq, Repr

def language : Reader Language where
  read w := do
    let (first, v) ← w.run? isLetter
    let (more, u) := ((Reader.run isLetter).after Byte.hyphen).many v
    return (⟨w.spanTo u, first :: more⟩, u)
  lt h := by
    simp only [Option.bind_eq_bind, Option.bind_eq_some_iff, Option.pure_def, Option.some.injEq,
      Prod.mk.injEq] at h
    obtain ⟨⟨_, v⟩, hv, _, rfl⟩ := h
    exact Window.lt_of_le_of_lt (Reader.many_le _ v) (Window.run?_lt hv)

structure Agent where
  span : Span
  product : Span
  version : Option Span
deriving DecidableEq, Repr

def agent : Reader Agent where
  read w :=
    let product := w.run fun b => !isSpace b && b != Byte.slash
    let version := (Reader.runAfter Byte.slash fun b => !isSpace b).optional product.2
    if version.2.pos = w.pos then none
    else some (⟨w.spanTo version.2, product.1, version.1⟩, version.2)
  lt h := by
    simp only at h
    split at h
    · simp at h
    · obtain ⟨_, rfl⟩ := Prod.mk.inj (Option.some.inj h)
      exact Window.lt_of_le_of_pos_ne
        (Window.le_trans (Reader.optional_le _ _) (Window.skip_le _ _)) ‹_›

/-- A name, and a version of one number or two. -/
structure Protocol where
  span : Span
  name : Span
  major : Span
  minor : Option Span
  /-- Both numbers, the major one in steps of 256. -/
  version : Nat
deriving DecidableEq, Repr

namespace Protocol

def maxVersion : Nat := 65535

/-- Version 0.9, for a request that names no protocol. -/
def unnamedVersion : Nat := 9

def number? (digits : List UInt8) : Option Nat :=
  if digits ≠ [] ∧ digits.all isDigit then some (decimal digits) else none

def version? (major : List UInt8) (minor : Option (List UInt8)) : Option Nat := do
  let m ← number? major
  let n ← (minor.map number?).getD (some 0)
  if m * 256 + n ≤ maxVersion then some (m * 256 + n) else none

end Protocol

def protocol : Reader Protocol where
  read w := do
    let (name, v) := w.run fun b => !isSpace b && b != Byte.slash
    let u ← v.eat? Byte.slash
    let (major, x) := u.run fun b => !isSpace b && b != Byte.dot
    let (minor, y) := (Reader.runAfter Byte.dot fun b => !isSpace b).optional x
    let version ← Protocol.version? (w.slice major) (minor.map w.slice)
    return (⟨w.spanTo y, name, major, minor, version⟩, y)
  lt h := by
    simp only [Option.bind_eq_bind, Option.bind_eq_some_iff, Option.pure_def, Option.some.injEq,
      Prod.mk.injEq] at h
    obtain ⟨u, hu, _, _, _, rfl⟩ := h
    exact Window.lt_of_le_of_lt
      (Window.le_trans (Reader.optional_le _ _) (Window.skip_le _ _))
      (Window.lt_of_lt_of_le (Window.eat?_lt hu) (Window.skip_le _ _))

end Recognition.Http
