import Recognition.Http.Product
import Recognition.Http.Url

namespace Recognition.Http

structure Request where
  /-- With the line break. -/
  span : Span
  verb : Span
  url : Url
  protocol : Option Protocol
deriving DecidableEq, Repr

namespace Request

def version (r : Request) : Nat := (r.protocol.map Protocol.version).getD Protocol.unnamedVersion

/-- What follows the target: nothing but white space up to the end of the line, or else a protocol
and the rest of the line. Where no protocol can be read, the request ends before it. -/
def tail (w : Window) : Option Protocol × Window :=
  -- A carriage return alone is white space within the line.
  if Byte.lf ∈ w.rest.takeWhile isSpace then (none, w.skipLine)
  else
    let v := w.skip isSpace
    match Http.protocol.read v with
    | none => (none, v)
    | some (p, u) => (some p, u.skipLine)

theorem tail_le (w : Window) : (tail w).2 ≤ w := by
  rw [tail]
  split
  · exact Window.skipLine_le w
  · simp only
    split
    · exact Window.skip_le _ _
    · exact Window.le_trans (Window.skipLine_le _)
        (Window.le_trans (Window.le_of_lt (Http.protocol.lt ‹_›)) (Window.skip_le _ _))

end Request

def request : Reader Request where
  read w := do
    let v ← w.skipInLine?
    let (verb, u) := v.run fun b => !isSpace b
    let x ← u.skipInLine?
    let (target, y) ← url.read x
    let (protocol, z) := Request.tail y
    return (⟨w.spanTo z, verb, target, protocol⟩, z)
  lt h := by
    simp only [Option.bind_eq_bind, Option.bind_eq_some_iff, Option.pure_def, Option.some.injEq,
      Prod.mk.injEq] at h
    obtain ⟨v, hv, x, hx, ⟨_, y⟩, hy, _, rfl⟩ := h
    exact Window.lt_of_lt_of_le (Window.lt_of_le_of_lt (Request.tail_le y) (url.lt hy))
      (Window.le_trans (Window.skipInLine?_le hx)
        (Window.le_trans (Window.skip_le _ _) (Window.skipInLine?_le hv)))

structure Header where
  span : Span
  name : Span
  /-- Without white space around it. Right after the colon if nothing is left. -/
  value : Span
deriving DecidableEq, Repr

namespace Header

/-- Whether a line that begins with these bytes continues the line before. -/
def continues : List UInt8 → Bool
  | b :: bs => isSpace b && !Window.isLineBreakAt (b :: bs)
  | [] => false

/-- How many bytes a value takes with its line break, continuation lines included. -/
def lineCount : List UInt8 → Nat
  | [] => 0
  | b :: bs => if b == Byte.lf && !continues bs then 1 else lineCount bs + 1

def trimmed (pos : Nat) (bytes : List UInt8) : Span :=
  let inner := ((bytes.dropWhile isSpace).reverse.dropWhile isSpace).length
  if inner = 0 then .empty pos
  else
    let lead := (bytes.takeWhile isSpace).length
    ⟨pos + lead, pos + lead + inner⟩

def isNamed (h : Header) (text name : List UInt8) : Bool :=
  sameIgnoringCase ((text.drop h.name.start).take h.name.length) name

end Header

def header : Reader Header where
  read w := do
    if w.rest.head?.all isSpace then none
    else
      let (name, v) := w.run fun b => b != Byte.colon && !isSpace b
      let u ← (← v.skipInLine?).eat? Byte.colon
      let n := Header.lineCount u.rest
      let value := Header.trimmed u.pos (u.rest.take n)
      return (⟨w.spanTo (u.drop n), name, value⟩, u.drop n)
  lt h := by
    simp only [Option.bind_eq_bind] at h
    split at h
    · simp at h
    · simp only [Option.bind_eq_some_iff, Option.pure_def, Option.some.injEq,
        Prod.mk.injEq] at h
      obtain ⟨v, hv, u, hu, _, rfl⟩ := h
      exact Window.lt_of_le_of_lt (Window.drop_le u _)
        (Window.lt_of_lt_of_le (Window.eat?_lt hu)
          (Window.le_trans (Window.skipInLine?_le hv) (Window.skip_le _ _)))

end Recognition.Http
