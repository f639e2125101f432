import Recognition.Http.Reader

namespace Recognition.Http

def token : Reader Span := .run isTokenByte

structure QuotedString where
  span : Span
  /-- Between the quotes, with its backslashes. -/
  content : Span
deriving DecidableEq, Repr

/-- How many bytes stand before the closing quote. A backslash takes any byte with it; a control may
only be part of linear white space. -/
def quotedCount? : List UInt8 → Option Nat
  | [] => none
  | b :: bs =>
    if Window.foldsAt (b :: bs) then (quotedCount? bs).map (· + 1)
    else if b = Byte.quote then some 0
    else if b = Byte.backslash then
      match bs with
      | [] => none
      | _ :: bs => (quotedCount? bs).map (· + 2)
    else if isControl b then none
    else (quotedCount? bs).map (· + 1)

def quotedString : Reader QuotedString where
  read w := do
    let v ← w.eat? Byte.quote
    let n ← quotedCount? v.rest
    let u := v.drop n
    return (⟨w.spanTo (u.drop 1), v.spanTo u⟩, u.drop 1)
  lt h := by
    simp only [Option.bind_eq_bind, Option.bind_eq_some_iff, Option.pure_def, Option.some.injEq,
      Prod.mk.injEq] at h
    obtain ⟨v, hv, n, _, _, rfl⟩ := h
    exact Window.lt_of_le_of_lt (Window.le_trans (Window.drop_le _ _) (Window.drop_le _ _))
      (Window.eat?_lt hv)

inductive Value where
  | quoted (string : QuotedString)
  | token (span : Span)
deriving DecidableEq, Repr

namespace Value

def span : Value → Span
  | quoted s => s.span
  | token s => s

def content : Value → Span
  | quoted s => s.content
  | token s => s

end Value

def value : Reader Value where
  read w :=
    match quotedString.read w with
    | some (s, v) => some (.quoted s, v)
    | none => (token.read w).map fun (s, v) => (.token s, v)
  lt h := by
    split at h
    · obtain ⟨_, rfl⟩ := Prod.mk.inj (Option.some.inj h)
      exact quotedString.lt ‹_›
    · obtain ⟨⟨s, v⟩, hs, h⟩ := Option.map_eq_some_iff.1 h
      obtain ⟨_, rfl⟩ := Prod.mk.inj h
      exact token.lt hs

structure Parameter where
  span : Span
  name : Span
  value : Value
deriving DecidableEq, Repr

def parameter : Reader Parameter where
  read w := do
    let (name, v) ← token.read w
    let (val, u) ← (value.afterFolded Byte.equals).read v
    return (⟨w.spanTo u, name, val⟩, u)
  lt h := by
    simp only [Option.bind_eq_bind, Option.bind_eq_some_iff, Option.pure_def, Option.some.injEq,
      Prod.mk.injEq] at h
    obtain ⟨⟨_, v⟩, hv, ⟨_, u⟩, hu, _, rfl⟩ := h
    exact Window.lt_of_lt_of_le (Reader.lt _ hu) (Window.le_of_lt (token.lt hv))

def parameters {α : Type} (r : Reader α) (w : Window) : List α × Window :=
  (r.afterFolded Byte.semicolon).many w

/-- A type and a subtype, either of which may be `*`. -/
structure MediaRange where
  span : Span
  type : Span
  subtype : Span
deriving DecidableEq, Repr

def mediaRange : Reader MediaRange where
  read w := do
    let (type, v) ← token.read w
    let (subtype, u) ← (token.afterFolded Byte.slash).read v
    return (⟨w.spanTo u, type, subtype⟩, u)
  lt h := by
    simp only [Option.bind_eq_bind, Option.bind_eq_some_iff, Option.pure_def, Option.some.injEq,
      Prod.mk.injEq] at h
    obtain ⟨⟨_, v⟩, hv, ⟨_, u⟩, hu, _, rfl⟩ := h
    exact Window.lt_of_lt_of_le (Reader.lt _ hu) (Window.le_of_lt (token.lt hv))

structure MediaType where
  span : Span
  range : MediaRange
  params : List Parameter
deriving DecidableEq, Repr

def mediaType : Reader MediaType where
  read w := do
    let (range, v) ← mediaRange.read w
    let (params, u) := parameters parameter v
    return (⟨w.spanTo u, range, params⟩, u)
  lt h := by
    simp only [Option.bind_eq_bind, Option.bind_eq_some_iff, Option.pure_def, Option.some.injEq,
      Prod.mk.injEq] at h
    obtain ⟨⟨_, v⟩, hv, _, rfl⟩ := h
    exact Window.lt_of_le_of_lt (Reader.many_le _ v) (mediaRange.lt hv)

end Recognition.Http
