import Recognition.Http.Token

namespace Recognition.Http

/-- An attribute of a cookie, a parameter with `$` before it. -/
structure CookieParameter where
  span : Span
  name : Span
  value : Value
deriving DecidableEq, Repr

def cookieParameter : Reader CookieParameter where
  read w := do
    let (p, v) ← (parameter.after Byte.dollar).read w
    return (⟨w.spanTo v, p.name, p.value⟩, v)
  lt h := by
    simp only [Option.bind_eq_bind, Option.bind_eq_some_iff, Option.pure_def, Option.some.injEq,
      Prod.mk.injEq] at h
    obtain ⟨⟨_, v⟩, hv, _, rfl⟩ := h
    exact Reader.lt _ hv

structure Cookie where
  span : Span
  name : Span
  /-- Without quotes. -/
  value : Span
  params : List CookieParameter
deriving DecidableEq, Repr

namespace Cookie

/-- A quoted string, or a run of bytes that may be empty. -/
def readValue (w : Window) : Span × Window :=
  match quotedString.read w with
  | some (s, v) => (s.content, v)
  | none => w.run isCookieByte

theorem readValue_le (w : Window) : (readValue w).2 ≤ w := by
  rw [readValue]
  split
  · exact Window.le_of_lt (quotedString.lt ‹_›)
  · exact Window.skip_le _ _

end Cookie

def cookie : Reader Cookie where
  read w := do
    let (name, v) ← token.read w
    let u ← v.skipFolds.eat? Byte.equals
    let (value, x) := Cookie.readValue u.skipFolds
    let (params, y) := parameters cookieParameter x
    return (⟨w.spanTo y, name, value, params⟩, y)
  lt h := by
    simp only [Option.bind_eq_bind, Option.bind_eq_some_iff, Option.pure_def, Option.some.injEq,
      Prod.mk.injEq] at h
    obtain ⟨⟨_, v⟩, hv, u, hu, _, rfl⟩ := h
    have huv := Window.lt_of_lt_of_le (Window.eat?_lt hu) (Window.skipFolds_le v)
    exact Window.lt_of_le_of_lt
      (Window.le_trans (Reader.many_le _ _)
        (Window.le_trans (Cookie.readValue_le _)
          (Window.le_trans (Window.skipFolds_le u) (Window.le_of_lt huv))))
      (token.lt hv)

namespace Cookie

def next : Reader Cookie where
  read w := ((w.skip isSpace).eat? Byte.semicolon).bind fun v => cookie.read (v.skip isSpace)
  lt h := by
    obtain ⟨v, hv, h⟩ := Option.bind_eq_some_iff.1 h
    have hvw := Window.lt_of_lt_of_le (Window.eat?_lt hv) (Window.skip_le _ _)
    exact Window.lt_of_lt_of_le (cookie.lt h)
      (Window.le_trans (Window.skip_le _ _) (Window.le_of_lt hvw))

/-- The cookies of a header's value, up to the first that is malformed. -/
def list (w : Window) : List Cookie :=
  match cookie.read (w.skip isSpace) with
  | none => []
  | some (c, v) => c :: (next.many v).1

end Cookie

end Recognition.Http
