import Recognition.Sgml.Reference
import Recognition.Utf16

namespace Recognition

/-- A text that is read one glyph at a time, at offsets in code units. A zero unit ends it as its
end does. -/
inductive Source where
  /-- One character a byte. -/
  | latin1 (bytes : List UInt8)
  /-- Units of UTF-16, in which surrogates need not be paired. -/
  | utf16 (units : List UInt16)
  | scalars (chars : List Char)
  | utf8 (text : List Char)
  /-- Bytes of UTF-8, a reference being one character. -/
  | sgml (text : List Char)
deriving Repr

namespace Source

def size : Source → Nat
  | latin1 bytes => bytes.length
  | utf16 units => units.length
  | scalars chars => chars.length
  | utf8 text | sgml text => Utf8.size text

def unit? (src : Source) (pos : Nat) : Option Nat :=
  match src with
  | latin1 bytes => bytes[pos]?.map UInt8.toNat
  | utf16 units => units[pos]?.map UInt16.toNat
  | scalars chars => chars[pos]?.map Char.toNat
  | utf8 text | sgml text => (Utf8.byte? text pos).map UInt8.toNat

/-- The end of what may be read under a bound. -/
def limit (src : Source) : Option Nat → Nat
  | none => src.size
  | some stop => min stop src.size

/-- The reference at byte `pos`, if its `;` stands before `e`. -/
def reference? (text : List Char) (pos e : Nat) : Option Glyph :=
  match Utf8.locate text pos with
  | .boundary ('&' :: cs) =>
    ((Sgml.reference? cs).map Prod.fst).filter fun g => pos + g.width ≤ e
  | _ => none

def glyph? (src : Source) (pos e : Nat) : Option Glyph :=
  match src with
  | latin1 bytes =>
    if pos < e then
      (bytes[pos]?.filter (· ≠ 0)).map fun b => ⟨Char.ofNat b.toNat, none, 1⟩
    else none
  | utf16 units => Utf16.glyph? units pos e
  | scalars chars =>
    if pos < e then (chars[pos]?.filter (· ≠ '\x00')).map fun c => ⟨c, none, 1⟩ else none
  | utf8 text => Utf8.glyph? text pos e
  | sgml text => (reference? text pos e).or (Utf8.glyph? text pos e)

def atEnd (src : Source) (pos e : Nat) : Bool :=
  e ≤ pos || (src.unit? pos).all (· = 0)

theorem reference?_bounds {text : List Char} {pos e : Nat} {g : Glyph}
    (h : reference? text pos e = some g) : 0 < g.width ∧ pos + g.width ≤ e := by
  unfold reference? at h
  split at h
  · obtain ⟨hr, hle⟩ := Option.filter_eq_some_iff.1 h
    obtain ⟨⟨g', rest⟩, hg, rfl⟩ := Option.map_eq_some_iff.1 hr
    obtain ⟨body, _, hw⟩ := Sgml.reference?_eq_some hg
    exact ⟨by simp only [hw]; omega, by simpa using hle⟩
  · simp at h

theorem glyph?_bounds {src : Source} {pos e : Nat} {g : Glyph} (h : src.glyph? pos e = some g) :
    0 < g.width ∧ pos + g.width ≤ e := by
  cases src with
  | latin1 bytes =>
    simp only [glyph?] at h
    split at h
    · obtain ⟨b, _, rfl⟩ := Option.map_eq_some_iff.1 h
      exact ⟨Nat.one_pos, ‹pos < e›⟩
    · simp at h
  | utf16 units => exact Utf16.glyph?_bounds h
  | scalars chars =>
    simp only [glyph?] at h
    split at h
    · obtain ⟨c, _, rfl⟩ := Option.map_eq_some_iff.1 h
      exact ⟨Nat.one_pos, ‹pos < e›⟩
    · simp at h
  | utf8 text => exact Utf8.glyph?_bounds h
  | sgml text =>
    rcases Option.or_eq_some_iff.1 h with h | ⟨_, h⟩
    · exact reference?_bounds h
    · exact Utf8.glyph?_bounds h

def walk (src : Source) (pos e : Nat) : List Glyph × Nat :=
  match _h : src.glyph? pos e with
  | none => ([], pos)
  | some g =>
    let rest := src.walk (pos + g.width) e
    (g :: rest.1, rest.2)
termination_by e - pos
decreasing_by
  have := glyph?_bounds _h
  omega

end Source

def isLineBreak (unit : Nat) : Bool := unit = 0xA || unit = 0xD

end Recognition
