import Recognition.Http.Message
import Recognition.Proofs.Http.ItemList
import Recognition.Proofs.Mirror.Offsets

namespace Recognition.Http

section Offsets

variable (φ : Nat → Nat)

def QuotedString.mapOffsets (s : QuotedString) : QuotedString :=
  ⟨s.span.mapOffsets φ, s.content.mapOffsets φ⟩

def Value.mapOffsets : Value → Value
  | .quoted s => .quoted (s.mapOffsets φ)
  | .token s => .token (s.mapOffsets φ)

def Parameter.mapOffsets (p : Parameter) : Parameter :=
  ⟨p.span.mapOffsets φ, p.name.mapOffsets φ, p.value.mapOffsets φ⟩

def CookieParameter.mapOffsets (p : CookieParameter) : CookieParameter :=
  ⟨p.span.mapOffsets φ, p.name.mapOffsets φ, p.value.mapOffsets φ⟩

def MediaRange.mapOffsets (m : MediaRange) : MediaRange :=
  ⟨m.span.mapOffsets φ, m.type.mapOffsets φ, m.subtype.mapOffsets φ⟩

def MediaType.mapOffsets (m : MediaType) : MediaType :=
  ⟨m.span.mapOffsets φ, m.range.mapOffsets φ, m.params.map (Parameter.mapOffsets φ)⟩

def UrlParameter.mapOffsets (p : UrlParameter) : UrlParameter :=
  ⟨p.span.mapOffsets φ, p.name.mapOffsets φ, p.value.map (Span.mapOffsets φ)⟩

/-- The port is a number and no offset. -/
def Url.mapOffsets (u : Url) : Url :=
  ⟨u.span.mapOffsets φ, u.server.map (Span.mapOffsets φ), u.port, u.path.map (Span.mapOffsets φ),
    u.params.map (UrlParameter.mapOffsets φ)⟩

def Language.mapOffsets (l : Language) : Language :=
  ⟨l.span.mapOffsets φ, l.components.map (Span.mapOffsets φ)⟩

def Cookie.mapOffsets (c : Cookie) : Cookie :=
  ⟨c.span.mapOffsets φ, c.name.mapOffsets φ, c.value.mapOffsets φ,
    c.params.map (CookieParameter.mapOffsets φ)⟩

def Agent.mapOffsets (a : Agent) : Agent :=
  ⟨a.span.mapOffsets φ, a.product.mapOffsets φ, a.version.map (Span.mapOffsets φ)⟩

def Protocol.mapOffsets (p : Protocol) : Protocol :=
  ⟨p.span.mapOffsets φ, p.name.mapOffsets φ, p.major.mapOffsets φ, p.minor.map (Span.mapOffsets φ),
    p.version⟩

def Request.mapOffsets (r : Request) : Request :=
  ⟨r.span.mapOffsets φ, r.verb.mapOffsets φ, r.url.mapOffsets φ,
    r.protocol.map (Protocol.mapOffsets φ)⟩

def Header.mapOffsets (h : Header) : Header :=
  ⟨h.span.mapOffsets φ, h.name.mapOffsets φ, h.value.mapOffsets φ⟩

def Weighted.mapOffsets {α : Type} (f : α → α) (x : Weighted α) : Weighted α :=
  ⟨x.span.mapOffsets φ, x.value.map f, x.weight, x.params.map (Parameter.mapOffsets φ)⟩

def Element.mapOffsets : (e : Element) → e.Result → e.Result
  | .token => Span.mapOffsets φ
  | .quotedString => QuotedString.mapOffsets φ
  | .value => Value.mapOffsets φ
  | .parameter => Parameter.mapOffsets φ
  | .cookieParameter => CookieParameter.mapOffsets φ
  | .mediaRange => MediaRange.mapOffsets φ
  | .mediaType => MediaType.mapOffsets φ
  | .urlParameter => UrlParameter.mapOffsets φ
  | .url => Url.mapOffsets φ
  | .language => Language.mapOffsets φ
  | .cookie => Cookie.mapOffsets φ
  | .agent => Agent.mapOffsets φ
  | .protocol => Protocol.mapOffsets φ
  | .request => Request.mapOffsets φ
  | .header => Header.mapOffsets φ
  | .weighted e => Weighted.mapOffsets φ e.mapOffsets

end Offsets

namespace Window

variable {k n : Nat} {p : UInt8 → Bool} {b : UInt8} {s : Span} {v w : Window}

def shift (k : Nat) (w : Window) : Window := ⟨w.pos + k, w.rest⟩

@[simp] theorem pos_shift : (w.shift k).pos = w.pos + k := rfl

@[simp] theorem rest_shift : (w.shift k).rest = w.rest := rfl

@[simp] theorem drop_shift : (w.shift k).drop n = (w.drop n).shift k := by
  simp only [shift, drop, Window.mk.injEq, and_true]
  omega

@[simp] theorem skip_shift : (w.shift k).skip p = (w.skip p).shift k := drop_shift

@[simp] theorem spanTo_shift : (w.shift k).spanTo (v.shift k) = (w.spanTo v).mapOffsets (· + k) :=
  rfl

@[simp] theorem run_shift :
    (w.shift k).run p = ((w.run p).1.mapOffsets (· + k), (w.run p).2.shift k) := by
  simp [run]

@[simp] theorem run?_shift :
    (w.shift k).run? p = (w.run? p).map fun x => (x.1.mapOffsets (· + k), x.2.shift k) := by
  have hcount : (w.shift k).count p = w.count p := rfl
  rw [run?, run?, hcount, run_shift]
  split <;> rfl

@[simp] theorem eat?_shift : (w.shift k).eat? b = (w.eat? b).map (shift k) := by
  rw [eat?, eat?, drop_shift, rest_shift]
  split <;> rfl

@[simp] theorem skipFolds_shift : (w.shift k).skipFolds = w.skipFolds.shift k := drop_shift

@[simp] theorem skipInLine?_shift : (w.shift k).skipInLine? = w.skipInLine?.map (shift k) := by
  simp only [skipInLine?, skip_shift, rest_shift]
  rw [apply_ite (Option.map (shift k))]
  rfl

@[simp] theorem skipLine_shift : (w.shift k).skipLine = w.skipLine.shift k := by
  simp [skipLine]

@[simp] theorem slice_shift : (w.shift k).slice (s.mapOffsets (· + k)) = w.slice s := by
  have hstart : s.start + k - (w.pos + k) = s.start - w.pos := by omega
  have hlength : s.stop + k - (s.start + k) = s.stop - s.start := by omega
  simp only [slice, Span.length, Span.mapOffsets, pos_shift, rest_shift, hstart, hlength]

end Window

open Window

namespace Reader

variable {α : Type} {r : Reader α} {f : (Nat → Nat) → α → α}

/-- Where the window stands does not matter to the reader. -/
structure Shifts (r : Reader α) (f : (Nat → Nat) → α → α) : Prop where
  read : ∀ (k : Nat) (w : Window),
    r.read (w.shift k) = (r.read w).map fun x => (f (· + k) x.1, x.2.shift k)

namespace Shifts

variable (h : r.Shifts f) (k : Nat) (w : Window)

include h

theorem many : r.many (w.shift k) = ((r.many w).1.map (f (· + k)), (r.many w).2.shift k) := by
  fun_induction r.many w with
  | case1 w hr => exact many_of_none (by rw [h.read, hr]; rfl)
  | case2 w a v hr rest ih =>
    have hread : r.read (w.shift k) = some (f (· + k) a, v.shift k) := by rw [h.read, hr]; rfl
    rw [many_of_some hread, ih]
    rfl

theorem optional :
    r.optional (w.shift k) = ((r.optional w).1.map (f (· + k)), (r.optional w).2.shift k) := by
  rw [Reader.optional, Reader.optional, h.read]
  cases r.read w <;> rfl

theorem after (b : UInt8) : (r.after b).Shifts f := by
  refine ⟨fun k w => ?_⟩
  simp only [Reader.after, eat?_shift]
  cases w.eat? b with
  | none => rfl
  | some v => exact h.read k v

theorem afterFolded (b : UInt8) : (r.afterFolded b).Shifts f := by
  refine ⟨fun k w => ?_⟩
  simp only [Reader.afterFolded, skipFolds_shift, eat?_shift]
  cases w.skipFolds.eat? b with
  | none => rfl
  | some v => simp [h.read]

theorem parameters : parameters r (w.shift k) =
    ((parameters r w).1.map (f (· + k)), (parameters r w).2.shift k) :=
  (h.afterFolded Byte.semicolon).many k w

end Shifts

theorem shifts_run (p : UInt8 → Bool) : (run p).Shifts Span.mapOffsets := ⟨fun _ _ => run?_shift⟩

theorem shifts_runAfter (b : UInt8) (p : UInt8 → Bool) : (runAfter b p).Shifts Span.mapOffsets := by
  refine ⟨fun k w => ?_⟩
  simp only [runAfter, eat?_shift]
  cases w.eat? b <;> simp

end Reader

open Reader

theorem shifts_token : token.Shifts Span.mapOffsets := shifts_run _

theorem shifts_quotedString : quotedString.Shifts QuotedString.mapOffsets := by
  refine ⟨fun k w => ?_⟩
  simp only [quotedString, eat?_shift]
  cases w.eat? Byte.quote with
  | none => rfl
  | some v =>
    cases hn : quotedCount? v.rest <;> simp [hn, QuotedString.mapOffsets]

theorem shifts_value : value.Shifts Value.mapOffsets := by
  refine ⟨fun k w => ?_⟩
  simp only [value, shifts_quotedString.read, shifts_token.read]
  cases quotedString.read w with
  | some x => rfl
  | none => cases token.read w <;> rfl

theorem shifts_parameter : parameter.Shifts Parameter.mapOffsets := by
  refine ⟨fun k w => ?_⟩
  simp only [parameter, shifts_token.read]
  cases token.read w with
  | none => rfl
  | some x =>
    obtain ⟨name, v⟩ := x
    have hvalue := (shifts_value.afterFolded Byte.equals).read k v
    cases hu : (value.afterFolded Byte.equals).read v <;> simp [hvalue, hu, Parameter.mapOffsets]

theorem shifts_cookieParameter : cookieParameter.Shifts CookieParameter.mapOffsets := by
  refine ⟨fun k w => ?_⟩
  simp only [cookieParameter, (shifts_parameter.after Byte.dollar).read]
  cases (parameter.after Byte.dollar).read w <;> rfl

theorem shifts_mediaRange : mediaRange.Shifts MediaRange.mapOffsets := by
  refine ⟨fun k w => ?_⟩
  simp only [mediaRange, shifts_token.read]
  cases token.read w with
  | none => rfl
  | some x =>
    obtain ⟨type, v⟩ := x
    have hsubtype := (shifts_token.afterFolded Byte.slash).read k v
    cases hu : (token.afterFolded Byte.slash).read v <;> simp [hsubtype, hu, MediaRange.mapOffsets]

theorem shifts_mediaType : mediaType.Shifts MediaType.mapOffsets := by
  refine ⟨fun k w => ?_⟩
  simp only [mediaType, shifts_mediaRange.read]
  cases mediaRange.read w with
  | none => rfl
  | some x => simp [shifts_parameter.parameters, MediaType.mapOffsets]

theorem shifts_urlParameter : urlParameter.Shifts UrlParameter.mapOffsets := by
  refine ⟨fun k w => ?_⟩
  simp only [urlParameter, run?_shift]
  cases w.run? Url.isNameByte with
  | none => rfl
  | some x => simp [(shifts_runAfter _ _).optional, UrlParameter.mapOffsets]

namespace Url

variable (k : Nat) (w : Window)

theorem port?_shift : port? (w.shift k) = (port? w).map fun x => (x.1, x.2.shift k) := by
  simp only [port?, eat?_shift]
  cases w.eat? Byte.colon with
  | none => rfl
  | some v => simp [Function.comp_def]

theorem authority?_shift : authority? (w.shift k) =
    (authority? w).map fun x => ((x.1.1.map (Span.mapOffsets (· + k)), x.1.2), x.2.shift k) := by
  simp only [authority?, rest_shift, drop_shift, run?_shift]
  split
  · cases (w.drop scheme.length).run? isServerByte with
    | none => rfl
    | some x =>
      simp only [Option.map_some, Option.bind_eq_bind, Option.bind_some, port?_shift]
      cases port? x.2 <;> rfl
  · rfl

theorem shifts_queryParameter : queryParameter.Shifts UrlParameter.mapOffsets := by
  refine ⟨fun k w => ?_⟩
  simp only [queryParameter, skip_shift]
  exact shifts_urlParameter.read k _

theorem readQuery_shift : readQuery (w.shift k) =
    ((readQuery w).1.map (UrlParameter.mapOffsets (· + k)), (readQuery w).2.shift k) := by
  simp only [readQuery, eat?_shift]
  cases w.eat? Byte.question with
  | none => rfl
  | some v => simp [shifts_queryParameter.many]

theorem readPath_shift : readPath (w.shift k) =
    ((readPath w).1.map (Span.mapOffsets (· + k)), (readPath w).2.shift k) :=
  (shifts_runAfter _ _).many k w

end Url

theorem shifts_url : url.Shifts Url.mapOffsets := by
  refine ⟨fun k w => ?_⟩
  simp only [url, Url.authority?_shift]
  cases Url.authority? w with
  | none => rfl
  | some x =>
    obtain ⟨⟨server, port⟩, v⟩ := x
    by_cases hpath : (Url.readPath v).1 = [] <;>
      simp [Url.readPath_shift, Url.readQuery_shift, hpath, Url.mapOffsets]

theorem shifts_language : language.Shifts Language.mapOffsets := by
  refine ⟨fun k w => ?_⟩
  simp only [language, run?_shift]
  cases w.run? isLetter with
  | none => rfl
  | some x => simp [((shifts_run _).after _).many, Language.mapOffsets]

theorem shifts_agent : agent.Shifts Agent.mapOffsets := by
  refine ⟨fun k w => ?_⟩
  simp only [agent, run_shift, (shifts_runAfter _ _).optional, pos_shift, Nat.add_right_cancel_iff]
  split <;> rfl

theorem shifts_protocol : protocol.Shifts Protocol.mapOffsets := by
  refine ⟨fun k w => ?_⟩
  simp only [protocol, run_shift, eat?_shift]
  cases (w.run fun b => !isSpace b && b != Byte.slash).2.eat? Byte.slash with
  | none => rfl
  | some u =>
    simp [(shifts_runAfter _ _).optional, Function.comp_def, Protocol.mapOffsets]

theorem Cookie.readValue_shift (k : Nat) (w : Window) : Cookie.readValue (w.shift k) =
    ((Cookie.readValue w).1.mapOffsets (· + k), (Cookie.readValue w).2.shift k) := by
  simp only [Cookie.readValue, shifts_quotedString.read]
  cases quotedString.read w <;> simp [QuotedString.mapOffsets]

theorem shifts_cookie : cookie.Shifts Cookie.mapOffsets := by
  refine ⟨fun k w => ?_⟩
  simp only [cookie, shifts_token.read]
  cases token.read w with
  | none => rfl
  | some x =>
    obtain ⟨name, v⟩ := x
    simp only [Option.map_some, Option.bind_eq_bind, Option.bind_some, skipFolds_shift, eat?_shift]
    cases v.skipFolds.eat? Byte.equals with
    | none => rfl
    | some u => simp [Cookie.readValue_shift, shifts_cookieParameter.parameters, Cookie.mapOffsets]

theorem Request.tail_shift (k : Nat) (w : Window) : Request.tail (w.shift k) =
    ((Request.tail w).1.map (Protocol.mapOffsets (· + k)), (Request.tail w).2.shift k) := by
  simp only [Request.tail, rest_shift, skipLine_shift, skip_shift, shifts_protocol.read]
  split
  · rfl
  · cases Http.protocol.read (w.skip isSpace) <;> simp

theorem shifts_request : request.Shifts Request.mapOffsets := by
  refine ⟨fun k w => ?_⟩
  simp only [request, skipInLine?_shift]
  cases w.skipInLine? with
  | none => rfl
  | some v =>
    simp only [Option.map_some, Option.bind_eq_bind, Option.bind_some, run_shift, skipInLine?_shift]
    cases (v.run fun b => !isSpace b).2.skipInLine? with
    | none => rfl
    | some x =>
      simp only [Option.map_some, Option.bind_some, shifts_url.read]
      cases url.read x with
      | none => rfl
      | some y => simp [Request.tail_shift, Request.mapOffsets]

theorem Header.trimmed_shift (k pos : Nat) (bytes : List UInt8) :
    Header.trimmed (pos + k) bytes = (Header.trimmed pos bytes).mapOffsets (· + k) := by
  rw [Header.trimmed, Header.trimmed]
  split
  · rfl
  · simp only [Span.mapOffsets, Span.mk.injEq]
    omega

theorem shifts_header : header.Shifts Header.mapOffsets := by
  refine ⟨fun k w => ?_⟩
  simp only [header, rest_shift, run_shift, skipInLine?_shift]
  split
  · rfl
  · cases (w.run fun b => b != Byte.colon && !isSpace b).2.skipInLine? with
    | none => rfl
    | some v =>
      simp only [Option.map_some, Option.bind_eq_bind, Option.bind_some, eat?_shift]
      cases v.eat? Byte.colon with
      | none => rfl
      | some u => simp [Header.trimmed_shift, Header.mapOffsets]

theorem Weight.readFraction_shift (k : Nat) (w : Window) : Weight.readFraction (w.shift k) =
    ((Weight.readFraction w).1, (Weight.readFraction w).2.shift k) := by
  simp only [Weight.readFraction, eat?_shift]
  cases w.eat? Byte.dot <;> simp

theorem shifts_weight : weight.Shifts fun _ x => x := by
  refine ⟨fun k w => ?_⟩
  simp only [weight, rest_shift, skip_shift, Weight.readFraction_shift]
  split
  · rfl
  · simp [Function.comp_def]

namespace Weighted

variable {α : Type} {r : Reader α} {f : (Nat → Nat) → α → α} (k : Nat) (w : Window)

theorem semicolon?_shift : semicolon? (w.shift k) = (semicolon? w).map (shift k) := by
  simp only [semicolon?, skip_shift, eat?_shift]
  cases (w.skip isSpace).eat? Byte.semicolon <;> simp

theorem weightName?_shift : weightName? (w.shift k) = (weightName? w).map (shift k) := by
  have hname : (((w.eat? 0x71).map (shift k)).or ((w.eat? 0x51).map (shift k))) =
      ((w.eat? 0x71).or (w.eat? 0x51)).map (shift k) := by
    cases w.eat? 0x71 <;> rfl
  simp only [weightName?, eat?_shift, hname]
  cases (w.eat? 0x71).or (w.eat? 0x51) with
  | none => rfl
  | some v =>
    simp only [Option.map_some, Option.bind_eq_bind, Option.bind_some, skip_shift, eat?_shift]
    cases (v.skip isSpace).eat? Byte.equals <;> simp

theorem valueOrAny_shift (h : r.Shifts f) : (valueOrAny r).read (w.shift k) =
    ((valueOrAny r).read w).map fun x => (x.1.map (f (· + k)), x.2.shift k) := by
  simp only [valueOrAny, h.read, eat?_shift]
  cases r.read w with
  | some x => rfl
  | none => cases w.eat? Byte.asterisk <;> rfl

def shiftOutcome {β : Type} (k : Nat) (g : β → β) : Except Window β → Except Window β
  | .ok x => .ok (g x)
  | .error q => .error (q.shift k)

theorem attributes_shift (sofar : Weight) : attributes sofar (w.shift k) =
    shiftOutcome k (fun x => (x.1, x.2.1.map (Parameter.mapOffsets (· + k)), x.2.2.shift k))
      (attributes sofar w) := by
  fun_induction attributes sofar w with
  | case1 sofar w hv =>
    rw [attributes_eq, semicolon?_shift, hv]
    rfl
  | case2 sofar w v hv q hq found u hu hend ih =>
    have hends : endsWeight (u.shift k) = true := hend
    rw [attributes_eq, semicolon?_shift, hv]
    simp only [Option.map_some, weightName?_shift, hq, shifts_weight.read, hu, hends, if_true, ih]
  | case3 sofar w v hv q hq found u hu hend =>
    have hends : ¬ endsWeight (u.shift k) = true := hend
    rw [attributes_eq, semicolon?_shift, hv]
    simp only [Option.map_some, weightName?_shift, hq, shifts_weight.read, hu, if_neg hends]
    rfl
  | case4 sofar w v hv q hq hu =>
    rw [attributes_eq, semicolon?_shift, hv]
    simp only [Option.map_some, weightName?_shift, hq, shifts_weight.read, hu]
    rfl
  | case5 sofar w v hv hq p u hp ih =>
    rw [attributes_eq, semicolon?_shift, hv]
    simp only [Option.map_some, weightName?_shift, hq, Option.map_none, shifts_parameter.read, hp,
      ih]
    cases attributes sofar u <;> rfl
  | case6 sofar w v hv hq hp =>
    rw [attributes_eq, semicolon?_shift, hv]
    simp only [Option.map_some, weightName?_shift, hq, Option.map_none, shifts_parameter.read, hp]
    rfl

theorem item?_shift (h : r.Shifts f) : item? r (w.shift k) =
    (item? r w).map
      (shiftOutcome k fun x => (x.1.mapOffsets (· + k) (f (· + k)), x.2.shift k)) := by
  simp only [item?, valueOrAny_shift k w h]
  cases (valueOrAny r).read w with
  | none => rfl
  | some x =>
    simp only [Option.map_some, attributes_shift]
    cases attributes .one x.2 <;> rfl

end Weighted

theorem shifts_weighted {α : Type} {r : Reader α} {f : (Nat → Nat) → α → α} (h : r.Shifts f) :
    (weighted r).Shifts fun φ => Weighted.mapOffsets φ (f φ) := by
  refine ⟨fun k w => ?_⟩
  simp only [weighted, Weighted.item?_shift k w h]
  cases Weighted.item? r w with
  | none => rfl
  | some outcome => cases outcome <;> rfl

theorem Element.shifts : (e : Element) → e.reader.Shifts fun φ => e.mapOffsets φ
  | .token => shifts_token
  | .quotedString => shifts_quotedString
  | .value => shifts_value
  | .parameter => shifts_parameter
  | .cookieParameter => shifts_cookieParameter
  | .mediaRange => shifts_mediaRange
  | .mediaType => shifts_mediaType
  | .urlParameter => shifts_urlParameter
  | .url => shifts_url
  | .language => shifts_language
  | .cookie => shifts_cookie
  | .agent => shifts_agent
  | .protocol => shifts_protocol
  | .request => shifts_request
  | .header => shifts_header
  | .weighted e => shifts_weighted e.shifts

namespace Cookie

theorem shifts_next : next.Shifts Cookie.mapOffsets := by
  refine ⟨fun k w => ?_⟩
  simp only [next, skip_shift, eat?_shift]
  cases (w.skip isSpace).eat? Byte.semicolon with
  | none => rfl
  | some v => simp [shifts_cookie.read]

theorem list_shift (k : Nat) (w : Window) :
    list (w.shift k) = (list w).map (Cookie.mapOffsets (· + k)) := by
  simp only [list, skip_shift, shifts_cookie.read]
  cases cookie.read (w.skip isSpace) with
  | none => rfl
  | some x => simp [shifts_next.many]

theorem list_of_nil {w : Window} (h : w.rest = []) : list w = [] := by
  have hskip : (w.skip isSpace).rest = [] := by rw [skip_rest, h]; rfl
  simp only [list, cookie.read_of_nil hskip]

end Cookie

section Alone

variable (text : List UInt8) (start : Nat) (stop : Option Nat)

/-- A window is the window of its bytes alone, as far on as it begins in the text. -/
theorem of_eq_shift :
    Window.of text start stop = (Window.of (bytesOf text start stop) 0 none).shift start := by
  have hbytes := of_eq text start stop
  have hidem : (bytesOf text start stop).takeWhile (· ≠ 0) = bytesOf text start stop := by
    rw [← (Window.mk.inj hbytes).2, List.takeWhile_takeWhile]
    simp
  rw [hbytes, Window.of, cut, upTo, List.drop_zero, hidem, shift, Nat.zero_add]

theorem rest_of_endOf_le (h : endOf text start stop ≤ start) :
    (Window.of text start stop).rest = [] := by
  rw [of_eq]
  apply List.eq_nil_of_length_eq_zero
  rw [length_bytesOf]
  omega

/-- What is read from `start` on depends on the bytes up to the end only, and is found in these
bytes alone as well, `start` offsets earlier. Where the text ends nothing is read. -/
theorem parse_bytesOf :
    (∀ e : Element, e.parse text start stop =
      if endOf text start stop ≤ start then none
      else (e.parse (bytesOf text start stop) 0 none).map (e.mapOffsets (· + start))) ∧
    (Cookie.list (.of text start stop) =
      if endOf text start stop ≤ start then []
      else (Cookie.list (.of (bytesOf text start stop) 0 none)).map
        (Cookie.mapOffsets (· + start))) ∧
    (headers text start stop =
      if endOf text start stop ≤ start then ([], start)
      else ((headers (bytesOf text start stop) 0 none).1.map (Header.mapOffsets (· + start)),
        (headers (bytesOf text start stop) 0 none).2 + start)) := by
  by_cases hend : endOf text start stop ≤ start
  · have hrest := rest_of_endOf_le text start stop hend
    simp only [if_pos hend]
    refine ⟨fun e => ?_, Cookie.list_of_nil hrest, ?_⟩
    · rw [Element.parse, e.reader.read_of_nil hrest]
      rfl
    · rw [headers, many_of_none (header.read_of_nil hrest)]
      rfl
  · simp only [if_neg hend]
    refine ⟨fun e => ?_, ?_, ?_⟩
    · rw [Element.parse, Element.parse, of_eq_shift, e.shifts.read]
      cases e.reader.read (.of (bytesOf text start stop) 0 none) <;> rfl
    · rw [of_eq_shift, Cookie.list_shift]
    · rw [headers, of_eq_shift, shifts_header.many]
      rfl

end Alone

end Recognition.Http
