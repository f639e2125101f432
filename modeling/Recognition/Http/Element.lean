import Recognition.Http.Cookie
import Recognition.Http.Request
import Recognition.Http.Weighted
import Recognition.Recognizer

namespace Recognition.Http

inductive Element where
  | token | quotedString | value | parameter | cookieParameter | mediaRange | mediaType
  | urlParameter | url | language | cookie | agent | protocol | request | header
  /-- Another element, or `*`, with its weight. -/
  | weighted (element : Element)
deriving DecidableEq, Repr

namespace Element

@[reducible] def Result : Element → Type
  | token => Span
  | quotedString => QuotedString
  | value => Value
  | parameter => Parameter
  | cookieParameter => CookieParameter
  | mediaRange => MediaRange
  | mediaType => MediaType
  | urlParameter => UrlParameter
  | url => Url
  | language => Language
  | cookie => Cookie
  | agent => Agent
  | protocol => Protocol
  | request => Request
  | header => Header
  | weighted e => Weighted e.Result

def reader : (e : Element) → Reader e.Result
  | token => Http.token
  | quotedString => Http.quotedString
  | value => Http.value
  | parameter => Http.parameter
  | cookieParameter => Http.cookieParameter
  | mediaRange => Http.mediaRange
  | mediaType => Http.mediaType
  | urlParameter => Http.urlParameter
  | url => Http.url
  | language => Http.language
  | cookie => Http.cookie
  | agent => Http.agent
  | protocol => Http.protocol
  | request => Http.request
  | header => Http.header
  | weighted e => Http.weighted e.reader

def span : (e : Element) → e.Result → Span
  | token => id
  | quotedString => QuotedString.span
  | value => Value.span
  | parameter => Parameter.span
  | cookieParameter => CookieParameter.span
  | mediaRange => MediaRange.span
  | mediaType => MediaType.span
  | urlParameter => UrlParameter.span
  | url => Url.span
  | language => Language.span
  | cookie => Cookie.span
  | agent => Agent.span
  | protocol => Protocol.span
  | request => Request.span
  | header => Header.span
  | weighted _ => Weighted.span

def parse (e : Element) (text : List UInt8) (start : Nat) (stop : Option Nat) : Option e.Result :=
  (e.reader.read (.of text start stop)).map Prod.fst

/-- Elements are found in bytes, and in no other encoding. -/
def recognizer (e : Element) : Recognizer e.Result where
  recognize src start stop _ :=
    match src with
    | .latin1 bytes => e.parse bytes start stop
    | _ => none
  span := e.span

end Element

end Recognition.Http
