import Recognition.Proofs.Http.Number
import Recognition.Proofs.Http.Written.Request
import Recognition.Proofs.Http.Written.Weight

namespace Recognition.Http

open Window

variable {w v : Window} {rest : List UInt8}

namespace Url

theorem readPath_eq_nil_iff : (readPath w).1 = [] ↔ w.rest.head? ≠ some Byte.slash := by
  unfold readPath
  rw [← eat?_eq_none]
  cases hread : (Reader.runAfter Byte.slash isSegmentByte).read w with
  | none =>
    rw [Reader.many_of_none hread]
    exact iff_of_true rfl (Option.map_eq_none_iff.1 hread)
  | some x =>
    rw [Reader.many_of_some hread]
    apply iff_of_false (List.cons_ne_nil _ _)
    intro hnone
    have hrun : (w.eat? Byte.slash).map (·.run isSegmentByte) = some x := hread
    rw [hnone] at hrun
    cases hrun

theorem port_of_authority? {server : Option Span} {port : Nat}
    (h : authority? w = some ((server, port), v)) :
    (url.read w).map (·.1.port) = if v.rest.head? = some Byte.slash then some port else none := by
  unfold url
  simp only [h, Option.bind_eq_bind, Option.bind_some]
  by_cases hpath : (readPath v).1 = []
  · rw [if_pos hpath, if_neg (readPath_eq_nil_iff.1 hpath)]
    rfl
  · rw [if_neg hpath, if_pos (not_not.1 (mt readPath_eq_nil_iff.2 hpath))]
    rfl

end Url

/-- What names a server and a port by its delimiters alone. -/
structure PortRuns where
  scheme : List UInt8
  server : List UInt8
  digits : List UInt8
  /-- Letters may have any case. -/
  scheme_eq : sameIgnoringCase scheme "http://".toUTF8.data.toList = true
  server_ne_nil : server ≠ []
  server_bytes : ∀ b ∈ server, isVisible b = true ∧ b ≠ Byte.colon ∧ b ≠ Byte.slash
  digits_digits : ∀ d ∈ digits, isDigit d = true

namespace PortRuns

def bytes (r : PortRuns) : List UInt8 := r.scheme ++ (r.server ++ Byte.colon :: r.digits)

theorem port_read (r : PortRuns) (hrest : Stops isDigit rest) (pos : Nat) :
    (url.read ⟨pos, r.bytes ++ rest⟩).map (·.1.port) =
      if rest.head? = some Byte.slash then Url.portOf? r.digits else none := by
  have hcolon : Stops Url.isServerByte (Byte.colon :: (r.digits ++ rest)) :=
    Stops.cons_iff.2 (by decide)
  have hauthority := Url.authority?_append r.scheme_eq r.server_ne_nil r.server_bytes hcolon pos
  rw [Url.port?_colon r.digits_digits hrest] at hauthority
  have hbytes : r.bytes ++ rest = r.scheme ++ (r.server ++ Byte.colon :: (r.digits ++ rest)) := by
    simp [bytes]
  rw [hbytes]
  cases hport : Url.portOf? r.digits with
  | none =>
    rw [hport] at hauthority
    have hnone : url.read ⟨pos, r.scheme ++ (r.server ++ Byte.colon :: (r.digits ++ rest))⟩ =
        none := by
      simp [url, hauthority]
    rw [hnone, ite_self]
    rfl
  | some port =>
    rw [hport] at hauthority
    exact Url.port_of_authority? hauthority

end PortRuns

theorem isSome_iff_of_map {α : Type} {o : Option α} {f : α → Nat} {n : Nat} {c : Prop} [Decidable c]
    (h : o.map f = if c then some n else none) :
    (o.isSome = true ↔ c) ∧ ∀ a, o = some a → f a = n := by
  by_cases hc : c
  · rw [if_pos hc] at h
    obtain ⟨a, rfl, rfl⟩ := Option.map_eq_some_iff.1 h
    exact ⟨iff_of_true rfl hc, fun a' ha' => congrArg f (Option.some.inj ha').symm⟩
  · rw [if_neg hc] at h
    obtain rfl := Option.map_eq_none_iff.1 h
    exact ⟨iff_of_false (by simp) hc, by simp⟩

section Text

variable {text : List UInt8} {start : Nat} {stop : Option Nat}

theorem PortRuns.parse_port (r : PortRuns) (hbytes : bytesOf text start stop = r.bytes ++ rest)
    (hrest : Stops isDigit rest) :
    (Element.url.parse text start stop).map Url.port =
      if rest.head? = some Byte.slash then Url.portOf? r.digits else none := by
  rw [Element.parse, Window.of_eq, Option.map_map, hbytes]
  exact r.port_read hrest start

theorem ProtocolRuns.parse_eq (r : ProtocolRuns)
    (hbytes : bytesOf text start stop = r.bytes ++ rest)
    (hrest : Stops (fun b => !isSpace b) rest) :
    Element.protocol.parse text start stop =
      (Protocol.version? r.major r.minor).map (r.protocol start) := by
  rw [Element.parse, Window.of_eq, hbytes]
  change (Http.protocol.read ⟨start, r.bytes ++ rest⟩).map Prod.fst = _
  rw [r.read_eq hrest, Option.map_map]
  rfl

theorem ProtocolRuns.parse_version (r : ProtocolRuns)
    (hbytes : bytesOf text start stop = r.bytes ++ rest)
    (hrest : Stops (fun b => !isSpace b) rest) :
    (Element.protocol.parse text start stop).map Protocol.version =
      Protocol.version? r.major r.minor := by
  rw [r.parse_eq hbytes hrest, Option.map_map]
  exact congrFun Option.map_id_fun' _

theorem ProtocolRuns.exists_of_parse_ne_none (h : Element.protocol.parse text start stop ≠ none) :
    ∃ (r : ProtocolRuns) (rest : List UInt8), bytesOf text start stop = r.bytes ++ rest ∧
      Stops (fun b => !isSpace b) rest := by
  rw [Element.parse, Window.of_eq, ne_eq, Option.map_eq_none_iff] at h
  exact exists_of_read_ne_none h

end Text

/-- Numbers in a text never wrap around. A port after a server is the number of the digits after the
colon, or the usual one without digits, and there is no target if it exceeds 16 bits; a version is
256 times the first number and the second, and there is no protocol if that exceeds 16 bits or if
one of the two is no number. Both are what words of 16 bits compute, checked at every step. -/
theorem port_and_version (text : List UInt8) (start : Nat) (stop : Option Nat) :
    (∀ (r : PortRuns) rest, bytesOf text start stop = r.bytes ++ rest → Stops isDigit rest →
      ((Element.url.parse text start stop).map Url.port =
        if rest.head? = some Byte.slash then (checkedPort? r.digits).map UInt16.toNat else none) ∧
      ((Element.url.parse text start stop).isSome = true ↔
        rest.head? = some Byte.slash ∧ Url.portValue r.digits ≤ 65535) ∧
      ∀ u, Element.url.parse text start stop = some u → u.port = Url.portValue r.digits) ∧
    (∀ (r : ProtocolRuns) rest, bytesOf text start stop = r.bytes ++ rest →
        Stops (fun b => !isSpace b) rest →
      ((Element.protocol.parse text start stop).map Protocol.version =
        (checkedVersion? r.major r.minor).map UInt16.toNat) ∧
      ((Element.protocol.parse text start stop).isSome = true ↔
        (IsNumber r.major ∧ ∀ ds ∈ r.minor, IsNumber ds) ∧ versionValue r.major r.minor ≤ 65535) ∧
      ∀ p, Element.protocol.parse text start stop = some p →
        p.version = versionValue r.major r.minor) ∧
    (Element.protocol.parse text start stop ≠ none →
      ∃ (r : ProtocolRuns) (rest : List UInt8), bytesOf text start stop = r.bytes ++ rest ∧
        Stops (fun b => !isSpace b) rest) := by
  refine ⟨?_, ?_, ProtocolRuns.exists_of_parse_ne_none⟩
  · intro r rest hbytes hrest
    have hport := r.parse_port hbytes hrest
    refine ⟨?_, isSome_iff_of_map ?_⟩
    · rw [hport, portOf?_eq_checkedPort? r.digits_digits]
    · rw [hport, Url.portOf?_eq, ite_and]
  · intro r rest hbytes hrest
    have hversion := r.parse_version hbytes hrest
    refine ⟨hversion.trans (version?_eq_checkedVersion? _ _), isSome_iff_of_map ?_⟩
    rw [hversion, version?_eq]
    exact (ite_and ..).symm

/-- Zeros in front change nothing, and both numbers may be as great as 16 bits allow. -/
theorem port_and_version_at_the_bound :
    (Element.url.parse "http://h:0065535/".toUTF8.data.toList 0 none).map Url.port = some 65535 ∧
    Element.url.parse "http://h:65536/".toUTF8.data.toList 0 none = none ∧
    (Element.url.parse "http://h:/".toUTF8.data.toList 0 none).map Url.port = some 80 ∧
    (Element.protocol.parse "H/0255.255 ".toUTF8.data.toList 0 none).map Protocol.version =
      some 65535 ∧
    Element.protocol.parse "H/256".toUTF8.data.toList 0 none = none := by
  let server (digits : List UInt8) (h : ∀ d ∈ digits, isDigit d = true) : PortRuns :=
    ⟨Url.scheme, [0x68], digits, by decide +kernel, by decide, by simp; decide, h⟩
  let protocol (major : List UInt8) (minor : Option (List UInt8))
      (hmajor : ∀ b ∈ major, isSpace b = false ∧ b ≠ Byte.dot)
      (hminor : ∀ m ∈ minor, ∀ b ∈ m, isSpace b = false) : ProtocolRuns :=
    ⟨[0x48], major, minor, by simp; decide, hmajor, hminor⟩
  have hslash : Stops isDigit [Byte.slash] := Stops.cons_iff.2 (by decide)
  have hspace : Stops (fun b => !isSpace b) [0x20] := Stops.cons_iff.2 (by decide)
  refine ⟨?_, ?_, ?_, ?_, ?_⟩
  · exact ((port_and_version _ 0 none).1
      (server [0x30, 0x30, 0x36, 0x35, 0x35, 0x33, 0x35] (by simp; decide)) _
      (by decide +kernel) hslash).1.trans (by decide +kernel)
  · have hiff := ((port_and_version "http://h:65536/".toUTF8.data.toList 0 none).1
      (server [0x36, 0x35, 0x35, 0x33, 0x36] (by simp; decide)) _ (by decide +kernel) hslash).2.1
    exact Option.not_isSome_iff_eq_none.1 (mt hiff.1 (by decide +kernel))
  · exact ((port_and_version _ 0 none).1 (server [] (by simp)) _ (by decide +kernel)
      hslash).1.trans (by decide +kernel)
  · exact ((port_and_version _ 0 none).2.1
      (protocol [0x30, 0x32, 0x35, 0x35] (some [0x32, 0x35, 0x35]) (by simp; decide)
        (by simp; decide)) _
      (by decide +kernel) hspace).1.trans (by decide +kernel)
  · have hiff := ((port_and_version "H/256".toUTF8.data.toList 0 none).2.1
      (protocol [0x32, 0x35, 0x36] none (by simp; decide) (by simp)) [] (by decide +kernel)
      (Stops.nil _)).2.1
    exact Option.not_isSome_iff_eq_none.1 (mt hiff.1 (by decide +kernel))

/-- The thousandths that the digits write, without those after the third decimal. -/
def WeightRuns.millis (r : WeightRuns) : Nat :=
  placeValue r.whole * 1000 + placeValue (padded 3 (r.fraction.getD []))

theorem WeightRuns.ofMillis?_eq (r : WeightRuns) :
    Weight.ofMillis? (decimal r.whole * 1000 + Weight.thousandths (r.fraction.getD [])) =
      Weight.ofMillis? r.millis := by
  rw [decimal_eq_placeValue, thousandths_eq_placeValue]
  rfl

/-- A weight is cut off and never rounded or wrapped around. It begins with all digits that are
there and goes on with a point, if that comes next, and all digits after it; there is none if there
are no digits at all or if the number exceeds 1, and else it is the number of thousandths without
the digits after the third decimal, and ends where the digits do. Words of 32 bits that stay at
their greatest value compute just this. -/
theorem weight_cut_off (text : List UInt8) (start : Nat) (stop : Option Nat) :
    ∃ (r : WeightRuns) (rest : List UInt8), bytesOf text start stop = r.bytes ++ rest ∧
      r.EndsBefore rest ∧
      (weight.read (.of text start stop)).map (fun (a, v) => (a.millis, v.pos)) =
        (if (r.whole = [] ∧ r.fraction.getD [] = []) ∨ 1000 < r.millis then none
        else some (r.millis, start + r.bytes.length)) ∧
      weight.read (.of text start stop) =
        if r.whole = [] ∧ r.fraction.getD [] = [] then none
        else (saturatingWeight? r.whole (r.fraction.getD [])).map fun a =>
          (a, ⟨start + r.bytes.length, rest⟩) := by
  obtain ⟨r, rest, hbytes, hrest⟩ := WeightRuns.exists_eq_append (bytesOf text start stop)
  have hread := r.read_eq hrest start
  rw [← hbytes, ← Window.of_eq] at hread
  have hfraction : ∀ d ∈ r.fraction.getD [], isDigit d = true := by
    cases hr : r.fraction with
    | none => simp
    | some ds => exact r.fraction_digits ds hr
  refine ⟨r, rest, hbytes, hrest, ?_, ?_⟩
  · rw [hread, r.ofMillis?_eq]
    by_cases hnone : r.whole = [] ∧ r.fraction.getD [] = []
    · rw [if_pos hnone, if_pos (.inl hnone), Option.map_none]
    · by_cases hle : r.millis ≤ 1000
      · have hnot : ¬ ((r.whole = [] ∧ r.fraction.getD [] = []) ∨ 1000 < r.millis) := by
          rw [not_or]
          exact ⟨hnone, by omega⟩
        rw [if_neg hnone, if_neg hnot, Weight.ofMillis?, dif_pos hle]
        rfl
      · rw [if_neg hnone, if_pos (.inr (by omega)), Weight.ofMillis?, dif_neg hle]
        rfl
  · rw [hread, ofMillis?_eq_saturatingWeight? r.whole_digits hfraction]

/-- Six digits after the point, a number just above 1, a point without digits after it, one without
digits at all, and a number that 32 bits cannot hold. -/
example :
    (weight.read (.of "0.123999,".toUTF8.data.toList 0 none)).map (·.2.pos) = some 8 ∧
    weight.read (.of "1.001".toUTF8.data.toList 0 none) = none ∧
    (weight.read (.of "1.x".toUTF8.data.toList 0 none)).map (·.2.pos) = some 2 ∧
    weight.read (.of ".".toUTF8.data.toList 0 none) = none ∧
    weight.read (.of "4294968.296".toUTF8.data.toList 0 none) = none := by
  decide +kernel

end Recognition.Http
