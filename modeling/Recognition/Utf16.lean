import Recognition.Glyph

namespace Recognition.Utf16

def isHighSurrogate (u : UInt16) : Bool := 0xD800 ≤ u && u < 0xDC00

def isLowSurrogate (u : UInt16) : Bool := 0xDC00 ≤ u && u < 0xE000

def ofSurrogates (high low : UInt16) : Char :=
  Char.ofNat (0x10000 + (high.toNat - 0xD800) * 0x400 + (low.toNat - 0xDC00))

def encodeChar (c : Char) : List UInt16 :=
  if c.toNat < 0x10000 then [c.toNat.toUInt16]
  else
    let n := c.toNat - 0x10000
    [(0xD800 + n / 0x400).toUInt16, (0xDC00 + n % 0x400).toUInt16]

def encode (text : List Char) : List UInt16 := text.flatMap encodeChar

/-- The glyph at `pos` before `e`. A surrogate without its partner there reads as a replacement. -/
def glyph? (units : List UInt16) (pos e : Nat) : Option Glyph :=
  if pos < e then
    match units[pos]? with
    | none => none
    | some u =>
      if u = 0 then none
      else if isHighSurrogate u then
        match if pos + 1 < e then units[pos + 1]? else none with
        | some v => if isLowSurrogate v then some ⟨ofSurrogates u v, none, 2⟩ else some .replacement
        | none => some .replacement
      else if isLowSurrogate u then some .replacement
      else some ⟨Char.ofNat u.toNat, none, 1⟩
  else none

theorem glyph?_bounds {units : List UInt16} {pos e : Nat} {g : Glyph}
    (h : glyph? units pos e = some g) : 0 < g.width ∧ pos + g.width ≤ e := by
  have lone {g : Glyph} (hw : g.width = 1) (hlt : pos < e) : 0 < g.width ∧ pos + g.width ≤ e := by
    omega
  rw [glyph?] at h
  split at h
  case isFalse => simp at h
  case isTrue hlt =>
    split at h
    case h_1 => simp at h
    case h_2 u hu =>
      split at h
      case isTrue => simp at h
      case isFalse =>
        split at h
        case isTrue =>
          split at h
          case h_1 v hv =>
            split at h
            case isTrue =>
              obtain rfl := Option.some.inj h
              split at hv
              case isTrue hlt' => exact ⟨Nat.two_pos, hlt'⟩
              case isFalse => simp at hv
            case isFalse => exact lone (Option.some.inj h ▸ rfl) hlt
          case h_2 => exact lone (Option.some.inj h ▸ rfl) hlt
        case isFalse =>
          split at h
          case isTrue => exact lone (Option.some.inj h ▸ rfl) hlt
          case isFalse => exact lone (Option.some.inj h ▸ rfl) hlt

end Recognition.Utf16
