import Recognition.Http.Element

namespace Recognition.Http

def headers (text : List UInt8) (start : Nat) (stop : Option Nat) : List Header × Nat :=
  let (list, w) := header.many (.of text start stop)
  (list, w.pos)

structure Message where
  request : Request
  headers : List Header
  position : Nat
  accept : WeightedList MediaRange
  acceptLanguage : WeightedList Language
  acceptEncoding : WeightedList Span
  cookies : List Cookie
  agents : List Agent
  contentTypes : List MediaType
deriving DecidableEq, Repr

/-- The headers that are looked into. -/
inductive HeaderName where
  | accept | acceptLanguage | acceptEncoding | cookie | userAgent | contentType
deriving DecidableEq, Repr

namespace HeaderName

def text : HeaderName → String
  | accept => "accept"
  | acceptLanguage => "accept-language"
  | acceptEncoding => "accept-encoding"
  | cookie => "cookie"
  | userAgent => "user-agent"
  | contentType => "content-type"

def all : List HeaderName :=
  [accept, acceptLanguage, acceptEncoding, cookie, userAgent, contentType]

def of? (text : List UInt8) (h : Header) : Option HeaderName :=
  all.find? fun name => h.isNamed text name.text.toUTF8.data.toList

end HeaderName

namespace Message

def addHeader (text : List UInt8) (m : Message) (h : Header) : Message :=
  let start := h.value.start
  let stop := some h.value.stop
  match HeaderName.of? text h with
  | none => m
  | some .accept => { m with accept := m.accept.insert mediaRange text start stop }
  | some .acceptLanguage =>
    { m with acceptLanguage := m.acceptLanguage.insert language text start stop }
  | some .acceptEncoding =>
    { m with acceptEncoding := m.acceptEncoding.insert token text start stop }
  | some .cookie => { m with cookies := m.cookies ++ Cookie.list (.of text start stop) }
  | some .userAgent => { m with agents := m.agents ++ (Element.agent.parse text start stop).toList }
  | some .contentType =>
    { m with contentTypes := m.contentTypes ++ (Element.mediaType.parse text start stop).toList }

def parse (text : List UInt8) (start : Nat) (stop : Option Nat) : Option Message :=
  (Element.request.parse text start stop).map fun request =>
    let (list, position) := Http.headers text request.span.stop stop
    list.foldl (addHeader text) ⟨request, list, position, .empty, .empty, .empty, [], [], []⟩

end Message

end Recognition.Http
