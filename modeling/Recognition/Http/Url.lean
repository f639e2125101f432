import Recognition.Http.Reader

namespace Recognition.Http

structure UrlParameter where
  span : Span
  name : Span
  value : Option Span
deriving DecidableEq, Repr

/-- The target of a request: `http://server:port`, which may be missing, a path, and a query. -/
structure Url where
  span : Span
  server : Option Span
  port : Nat
  /-- What follows each slash, perhaps nothing. -/
  path : List Span
  params : List UrlParameter
deriving DecidableEq, Repr

def isVisible (b : UInt8) : Bool := !isControl b && !isSpace b

namespace Url

def isServerByte (b : UInt8) : Bool := isVisible b && b != Byte.colon && b != Byte.slash

def isSegmentByte (b : UInt8) : Bool := isVisible b && b != Byte.question && b != Byte.slash

def isNameByte (b : UInt8) : Bool := isVisible b && b != Byte.ampersand && b != Byte.equals

def isValueByte (b : UInt8) : Bool := isVisible b && b != Byte.ampersand

def defaultPort : Nat := 80

def maxPort : Nat := 65535

/-- The bytes of `http://`. -/
def scheme : List UInt8 := [0x68, 0x74, 0x74, 0x70, 0x3A, 0x2F, 0x2F]

def portOf? (digits : List UInt8) : Option Nat :=
  if digits = [] then some defaultPort
  else if decimal digits ≤ maxPort then some (decimal digits)
  else none

def port? (w : Window) : Option (Nat × Window) :=
  match w.eat? Byte.colon with
  | none => some (defaultPort, w)
  | some v => (portOf? (v.rest.takeWhile isDigit)).map fun port => (port, v.skip isDigit)

/-- The server and the port, if the target names a server. -/
def authority? (w : Window) : Option ((Option Span × Nat) × Window) :=
  if sameIgnoringCase (w.rest.take scheme.length) scheme then do
    let (server, v) ← (w.drop scheme.length).run? isServerByte
    let (port, u) ← port? v
    return ((some server, port), u)
  else some ((none, defaultPort), w)

end Url

def urlParameter : Reader UrlParameter where
  read w := do
    let (name, v) ← w.run? Url.isNameByte
    let (value, u) := (Reader.runAfter Byte.equals Url.isValueByte).optional v
    return (⟨w.spanTo u, name, value⟩, u)
  lt h := by
    simp only [Option.bind_eq_bind, Option.bind_eq_some_iff, Option.pure_def, Option.some.injEq,
      Prod.mk.injEq] at h
    obtain ⟨⟨_, v⟩, hv, _, rfl⟩ := h
    exact Window.lt_of_le_of_lt (Reader.optional_le _ v) (Window.run?_lt hv)

namespace Url

/-- A parameter with any number of `&` before it. -/
def queryParameter : Reader UrlParameter where
  read w := urlParameter.read (w.skip (· == Byte.ampersand))
  lt h := Window.lt_of_lt_of_le (urlParameter.lt h) (Window.skip_le _ _)

def readQuery (w : Window) : List UrlParameter × Window :=
  match w.eat? Byte.question with
  | none => ([], w)
  | some v =>
    let (params, u) := queryParameter.many v
    (params, u.skip (· == Byte.ampersand))

def readPath (w : Window) : List Span × Window :=
  (Reader.runAfter Byte.slash isSegmentByte).many w

theorem port?_le {w v : Window} {n : Nat} (h : port? w = some (n, v)) : v ≤ w := by
  rw [port?] at h
  split at h
  · obtain ⟨_, rfl⟩ := Prod.mk.inj (Option.some.inj h)
    exact Window.le_refl w
  · rename_i u hu
    obtain ⟨_, _, h⟩ := Option.map_eq_some_iff.1 h
    obtain ⟨_, rfl⟩ := Prod.mk.inj h
    exact Window.le_trans (Window.skip_le isDigit u) (Window.le_of_lt (Window.eat?_lt hu))

theorem authority?_le {w v : Window} {a : Option Span × Nat} (h : authority? w = some (a, v)) :
    v ≤ w := by
  rw [authority?] at h
  split at h
  · simp only [Option.bind_eq_bind, Option.bind_eq_some_iff, Option.pure_def, Option.some.injEq,
      Prod.mk.injEq] at h
    obtain ⟨⟨_, u⟩, hu, ⟨_, x⟩, hx, _, rfl⟩ := h
    exact Window.le_trans (port?_le hx)
      (Window.le_trans (Window.le_of_lt (Window.run?_lt hu)) (Window.drop_le _ _))
  · obtain ⟨_, rfl⟩ := Prod.mk.inj (Option.some.inj h)
    exact Window.le_refl w

theorem readQuery_le (w : Window) : (readQuery w).2 ≤ w := by
  rw [readQuery]
  split
  · exact Window.le_refl w
  · rename_i v hv
    exact Window.le_trans (Window.skip_le _ _)
      (Window.le_trans (Reader.many_le _ v) (Window.le_of_lt (Window.eat?_lt hv)))

theorem readPath_lt {w : Window} (h : (readPath w).1 ≠ []) : (readPath w).2 < w := by
  rw [readPath] at h ⊢
  cases hr : (Reader.runAfter Byte.slash isSegmentByte).read w with
  | none => simp [Reader.many_of_none hr] at h
  | some av =>
    rw [Reader.many_of_some hr]
    exact Window.lt_of_le_of_lt (Reader.many_le _ _) (Reader.lt _ hr)

end Url

def url : Reader Url where
  read w := do
    let ((server, port), v) ← Url.authority? w
    let (path, u) := Url.readPath v
    if path = [] then none
    else
      let (params, x) := Url.readQuery u
      return (⟨w.spanTo x, server, port, path, params⟩, x)
  lt h := by
    simp only [Option.bind_eq_bind, Option.bind_eq_some_iff] at h
    obtain ⟨⟨_, v⟩, hv, h⟩ := h
    split at h
    · simp at h
    · simp only [Option.pure_def, Option.some.injEq, Prod.mk.injEq] at h
      obtain ⟨_, rfl⟩ := h
      exact Window.lt_of_le_of_lt (Url.readQuery_le _)
        (Window.lt_of_lt_of_le (Url.readPath_lt ‹_›) (Url.authority?_le hv))

end Recognition.Http
