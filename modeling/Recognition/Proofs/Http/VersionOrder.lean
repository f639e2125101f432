import Mathlib.Data.Prod.Lex
import Recognition.Proofs.Http.DecimalField

namespace Recognition.Http

open Window

namespace Protocol

def majorNumber (p : Protocol) (text : List UInt8) : Nat := placeValue (p.major.bytes text)

/-- The second number, as the text has it, and 0 if it is missing. -/
def minorNumber (p : Protocol) (text : List UInt8) : Nat :=
  (p.minor.map (·.bytes text)).elim 0 placeValue

/-- Both numbers, the first deciding on the order. -/
def numbers (p : Protocol) (text : List UInt8) : Nat ×ₗ Nat :=
  toLex (p.majorNumber text, p.minorNumber text)

/-- Both numbers, with what does not fit into a byte of the second carried into the first. -/
def carried (p : Protocol) (text : List UInt8) : Nat ×ₗ Nat :=
  toLex (p.majorNumber text + p.minorNumber text / 256, p.minorNumber text % 256)

theorem carried_eq_numbers {p : Protocol} {text : List UInt8} (h : p.minorNumber text ≤ 255) :
    p.carried text = p.numbers text := by
  unfold carried numbers
  rw [Nat.div_eq_of_lt (by omega), Nat.mod_eq_of_lt (by omega), Nat.add_zero]

end Protocol

section Parsed

variable {text : List UInt8} {start : Nat} {stop : Option Nat} {p : Protocol}

theorem version_of_parse (h : Element.protocol.parse text start stop = some p) :
    p.version = p.majorNumber text * 256 + p.minorNumber text ∧ p.version ≤ 65535 := by
  have hsome : Element.protocol.parse text start stop ≠ none := by
    rw [h]
    exact Option.some_ne_none p
  obtain ⟨r, rest, hbytes, hrest⟩ := ProtocolRuns.exists_of_parse_ne_none hsome
  rw [r.parse_eq hbytes hrest] at h
  obtain ⟨version, hversion, rfl⟩ := Option.map_eq_some_iff.1 h
  obtain ⟨_, hmajor, hminor⟩ := r.bytes_protocol version (.of_bytesOf hbytes)
  unfold Protocol.majorNumber Protocol.minorNumber
  rw [hmajor, hminor]
  exact eq_versionValue hversion

/-- With the carry, both numbers are the bytes of the version. -/
theorem carried_of_parse (h : Element.protocol.parse text start stop = some p) :
    p.carried text = toLex (p.version / 256, p.version % 256) := by
  have hversion := (version_of_parse h).1
  have hmajor : p.version / 256 = p.majorNumber text + p.minorNumber text / 256 := by omega
  have hminor : p.version % 256 = p.minorNumber text % 256 := by omega
  rw [hmajor, hminor]
  rfl

end Parsed

theorem le_iff_toLex (m n : Nat) : m ≤ n ↔ toLex (m / 256, m % 256) ≤ toLex (n / 256, n % 256) := by
  rw [Prod.Lex.toLex_le_toLex]
  omega

section Printed

/-- The digits of a number, with a zero in front so that there is always one. -/
def decimalBytes (n : Nat) : List UInt8 := 0x30 :: ((Nat.digits 10 n).map Weight.digitByte).reverse

theorem digitValue_digitByte {k : Nat} (h : k < 10) : digitValue (Weight.digitByte k) = k := by
  unfold digitValue
  rw [(Weight.digit_spec k).2.2.2, Nat.mod_eq_of_lt h]

theorem placeValue_decimalBytes (n : Nat) : placeValue (decimalBytes n) = n := by
  have hdigits : (Nat.digits 10 n).map (digitValue ∘ Weight.digitByte) =
      (Nat.digits 10 n).map id := by
    apply List.map_congr_left
    intro d hd
    exact digitValue_digitByte (Nat.digits_lt_base (by omega) hd)
  have hzero : digitValue 0x30 = 0 := rfl
  unfold decimalBytes
  rw [placeValue_cons, hzero, Nat.zero_mul, Nat.zero_add, placeValue, List.map_reverse,
    List.reverse_reverse, List.map_map, hdigits, List.map_id, Nat.ofDigits_digits]

theorem isDigit_decimalBytes (n : Nat) : ∀ d ∈ decimalBytes n, isDigit d = true := by
  intro d hd
  simp only [decimalBytes, List.mem_cons, List.mem_reverse, List.mem_map] at hd
  rcases hd with rfl | ⟨k, _, rfl⟩
  · rfl
  · exact (Weight.digit_spec k).2.2.1

theorem exists_protocol (major minor : Nat) (h : major * 256 + minor ≤ 65535) :
    ∃ text p, Element.protocol.parse text 0 none = some p ∧ p.majorNumber text = major ∧
      p.minorNumber text = minor := by
  have hvalue : decimal (decimalBytes major) * 256 + decimal (decimalBytes minor) ≤ 65535 := by
    rw [decimal_eq_placeValue, decimal_eq_placeValue, placeValue_decimalBytes,
      placeValue_decimalBytes]
    exact h
  let f : ProtocolForm :=
    ⟨[], decimalBytes major, some (decimalBytes minor), by simp, List.cons_ne_nil _ _,
      isDigit_decimalBytes major, by simp [decimalBytes], by simpa using isDigit_decimalBytes minor,
      hvalue⟩
  have hbytes : bytesOf f.bytes 0 none = f.runs.bytes ++ [] := by
    rw [bytesOf_of_notMem f.nul_notMem, List.append_nil]
    rfl
  have hversion : Protocol.version? f.runs.major f.runs.minor = some f.version := f.version?_eq
  have hparse := f.runs.parse_eq hbytes (Stops.nil _)
  rw [hversion] at hparse
  obtain ⟨_, hmajor, hminor⟩ := f.runs.bytes_protocol f.version (.of_bytesOf hbytes)
  refine ⟨f.bytes, _, hparse, ?_, ?_⟩
  · rw [Protocol.majorNumber, hmajor]
    exact placeValue_decimalBytes major
  · rw [Protocol.minorNumber, hminor]
    exact placeValue_decimalBytes minor

end Printed

/-- The versions of any two protocols are ordered like the pairs of their numbers, the second one
carried into the first where it does not fit into a byte. So they are ordered like the numbers
themselves, and equal for equal numbers only, if neither second number is greater than 255; and
where one is, there is another protocol of that version whose numbers are greater. -/
theorem version_order {text text' : List UInt8} {start start' : Nat} {stop stop' : Option Nat}
    {p q : Protocol} (hp : Element.protocol.parse text start stop = some p)
    (hq : Element.protocol.parse text' start' stop' = some q) :
    (p.minorNumber text ≤ 255 → q.minorNumber text' ≤ 255 →
      (p.version ≤ q.version ↔ p.numbers text ≤ q.numbers text') ∧
      (p.version = q.version ↔
        p.majorNumber text = q.majorNumber text' ∧ p.minorNumber text = q.minorNumber text')) ∧
    (p.version ≤ q.version ↔ p.carried text ≤ q.carried text') ∧
    (255 < p.minorNumber text → ∃ other o, Element.protocol.parse other 0 none = some o ∧
      o.minorNumber other ≤ 255 ∧ o.version = p.version ∧ p.numbers text < o.numbers other) := by
  have hcarried : p.version ≤ q.version ↔ p.carried text ≤ q.carried text' := by
    rw [carried_of_parse hp, carried_of_parse hq]
    exact le_iff_toLex p.version q.version
  obtain ⟨hversion, hle⟩ := version_of_parse hp
  refine ⟨?_, hcarried, ?_⟩
  · intro hminor hminor'
    rw [Protocol.carried_eq_numbers hminor, Protocol.carried_eq_numbers hminor'] at hcarried
    have hversion' := (version_of_parse hq).1
    refine ⟨hcarried, ?_⟩
    omega
  · intro hminor
    -- The bytes of the version are numbers themselves.
    obtain ⟨other, o, hparse, hmajor, hbyte⟩ :=
      exists_protocol (p.version / 256) (p.version % 256) (by omega)
    have hother := (version_of_parse hparse).1
    refine ⟨other, o, hparse, by omega, by omega, ?_⟩
    unfold Protocol.numbers
    rw [Prod.Lex.toLex_lt_toLex]
    left
    omega

/-- The greatest second number of a byte, before the next first number, which may stand alone. One
more is carried. -/
theorem version_order_at_the_carry :
    (⟨⟨0, 10⟩, ⟨0, 4⟩, ⟨5, 6⟩, some ⟨7, 10⟩, 511⟩ : Protocol).numbers
        "HTTP/1.255".toUTF8.data.toList ≤
      (⟨⟨6, 12⟩, ⟨6, 10⟩, ⟨11, 12⟩, none, 512⟩ : Protocol).numbers
        "GET / HTTP/2".toUTF8.data.toList ∧
    ∃ other o, Element.protocol.parse other 0 none = some o ∧ o.version = 512 ∧
      (⟨⟨0, 10⟩, ⟨0, 4⟩, ⟨5, 6⟩, some ⟨7, 10⟩, 512⟩ : Protocol).numbers
        "HTTP/1.256".toUTF8.data.toList < o.numbers other := by
  have hfirst : Element.protocol.parse "HTTP/1.255".toUTF8.data.toList 0 none =
      some ⟨⟨0, 10⟩, ⟨0, 4⟩, ⟨5, 6⟩, some ⟨7, 10⟩, 511⟩ := by
    decide +kernel
  have hnext : Element.protocol.parse "GET / HTTP/2".toUTF8.data.toList 6 none =
      some ⟨⟨6, 12⟩, ⟨6, 10⟩, ⟨11, 12⟩, none, 512⟩ := by
    decide +kernel
  have hcarry : Element.protocol.parse "HTTP/1.256".toUTF8.data.toList 0 none =
      some ⟨⟨0, 10⟩, ⟨0, 4⟩, ⟨5, 6⟩, some ⟨7, 10⟩, 512⟩ := by
    decide +kernel
  obtain ⟨other, o, hparse, -, hversion, hlt⟩ :=
    (version_order hcarry hnext).2.2 (by decide +kernel)
  refine ⟨?_, other, o, hparse, hversion, hlt⟩
  exact ((version_order hfirst hnext).1 (by decide +kernel) (by decide +kernel)).1.1 (by decide)

/-- Two texts with one version, and not with the same numbers. -/
theorem version_of_different_numbers :
    ∃ p q, Element.protocol.parse "HTTP/1.256".toUTF8.data.toList 0 none = some p ∧
      Element.protocol.parse "HTTP/2.0".toUTF8.data.toList 0 none = some q ∧
      p.version = q.version ∧
      p.majorNumber "HTTP/1.256".toUTF8.data.toList ≠ q.majorNumber "HTTP/2.0".toUTF8.data.toList ∧
      q.version ≤ p.version ∧
      ¬ q.numbers "HTTP/2.0".toUTF8.data.toList ≤ p.numbers "HTTP/1.256".toUTF8.data.toList :=
  ⟨⟨⟨0, 10⟩, ⟨0, 4⟩, ⟨5, 6⟩, some ⟨7, 10⟩, 512⟩, ⟨⟨0, 8⟩, ⟨0, 4⟩, ⟨5, 6⟩, some ⟨7, 8⟩, 512⟩,
    by decide +kernel⟩

end Recognition.Http
