import Recognition.Source

namespace Recognition

/-- A way of writing each scalar as code units. -/
inductive Encoding where
  | latin1 | utf16 | scalars | utf8
deriving DecidableEq, Repr

namespace Encoding

def source : Encoding → List Char → Source
  | latin1, cs => .latin1 (cs.map fun c => c.toNat.toUInt8)
  | utf16, cs => .utf16 (Utf16.encode cs)
  | scalars, cs => .scalars cs
  | utf8, cs => .utf8 cs

/-- Whether the encoding has the scalar. -/
def Holds : Encoding → Char → Prop
  | latin1, c => c.toNat ≤ 0xFF
  | _, _ => True

def units : Encoding → Char → List Nat
  | latin1, c => [c.toNat.toUInt8.toNat]
  | utf16, c => (Utf16.encodeChar c).map UInt16.toNat
  | scalars, c => [c.toNat]
  | utf8, c => (String.utf8EncodeChar c).map UInt8.toNat

variable (enc : Encoding)

theorem size_source (cs : List Char) : (enc.source cs).size = (cs.flatMap enc.units).length := by
  induction cs with
  | nil => cases enc <;> rfl
  | cons c cs ih =>
    rw [List.flatMap_cons, List.length_append, ← ih]
    cases enc with
    | latin1 => simp [source, Source.size, units, Nat.add_comm]
    | utf16 => simp [source, Source.size, units, Utf16.encode]
    | scalars => simp [source, Source.size, units, Nat.add_comm]
    | utf8 => simp [source, Source.size, units]

theorem unit?_source (cs : List Char) (n : Nat) :
    (enc.source cs).unit? n = (cs.flatMap enc.units)[n]? := by
  cases enc with
  | latin1 =>
    have hmap : cs.flatMap latin1.units = (cs.map fun c => c.toNat.toUInt8).map UInt8.toNat := by
      rw [List.map_map, List.map_eq_flatMap]
      rfl
    rw [hmap, List.getElem?_map]
    rfl
  | utf16 =>
    have hmap : cs.flatMap utf16.units = (Utf16.encode cs).map UInt16.toNat := by
      rw [Utf16.encode, List.map_flatMap]
      rfl
    rw [hmap, List.getElem?_map]
    rfl
  | scalars =>
    have hmap : cs.flatMap scalars.units = cs.map Char.toNat := by
      rw [List.map_eq_flatMap]
      rfl
    rw [hmap, List.getElem?_map]
    rfl
  | utf8 =>
    have hmap : cs.flatMap utf8.units = (Utf8.bytes cs).map UInt8.toNat := by
      rw [Utf8.bytes, List.map_flatMap]
      rfl
    rw [hmap, List.getElem?_map, ← Utf8.byte?_eq_getElem?]
    rfl

variable {enc} {c : Char}

theorem units_of_ascii (h : c.toNat < 0x80) : enc.units c = [c.toNat] := by
  cases enc with
  | latin1 => simp [units, Nat.mod_eq_of_lt (show c.toNat < 256 by omega)]
  | utf16 =>
    have hsmall : c.toNat < 0x10000 := by omega
    simp [units, Utf16.encodeChar, hsmall, Nat.mod_eq_of_lt hsmall]
  | scalars => rfl
  | utf8 =>
    have hle : c.toNat ≤ 0x7f := by omega
    have hmod : c.toNat % 256 = c.toNat := Nat.mod_eq_of_lt (by omega)
    simp [units, String.utf8EncodeChar, hle, hmod]

theorem toNat_valid (c : Char) : c.toNat < 0xD800 ∨ 0xDFFF < c.toNat ∧ c.toNat < 0x110000 :=
  c.valid

theorem le_of_mem_units (hfit : enc.Holds c) (h : 0x80 ≤ c.toNat) {u : Nat} (hu : u ∈ enc.units c) :
    0x80 ≤ u := by
  have hvalid := toNat_valid c
  cases enc with
  | latin1 =>
    have hle : c.toNat ≤ 0xFF := hfit
    simp [units] at hu
    omega
  | utf16 =>
    by_cases hsmall : c.toNat < 0x10000
    · simp [units, Utf16.encodeChar, hsmall, Nat.mod_eq_of_lt hsmall] at hu
      omega
    · simp [units, Utf16.encodeChar, hsmall] at hu
      omega
  | scalars =>
    obtain rfl := List.mem_singleton.1 hu
    exact h
  | utf8 =>
    have hlarge : ¬ c.toNat ≤ 0x7f := by omega
    by_cases htwo : c.toNat ≤ 0x7ff
    · simp [units, String.utf8EncodeChar, hlarge, htwo] at hu
      omega
    · by_cases hthree : c.toNat ≤ 0xffff
      · simp [units, String.utf8EncodeChar, hlarge, htwo, hthree] at hu
        omega
      · simp [units, String.utf8EncodeChar, hlarge, htwo, hthree] at hu
        omega

theorem eq_or_le_of_mem_units (hfit : enc.Holds c) {u : Nat} (hu : u ∈ enc.units c) :
    u = c.toNat ∨ 0x80 ≤ u ∧ 0x80 ≤ c.toNat := by
  by_cases h : c.toNat < 0x80
  · rw [units_of_ascii h, List.mem_singleton] at hu
    exact .inl hu
  · have hle := Nat.le_of_not_lt h
    exact .inr ⟨le_of_mem_units hfit hle hu, hle⟩

theorem units_ne_nil (enc : Encoding) (c : Char) : enc.units c ≠ [] := by
  cases enc with
  | latin1 => exact List.cons_ne_nil _ _
  | utf16 => simp only [units, Utf16.encodeChar]; split <;> simp
  | scalars => exact List.cons_ne_nil _ _
  | utf8 =>
    intro h
    have hsize : c.utf8Size = 0 := by simpa [units] using congrArg List.length h
    have := c.utf8Size_pos
    omega

end Encoding

namespace Utf16

variable {c : Char} {u : UInt16}

theorem isHighSurrogate_iff : isHighSurrogate u = true ↔ 0xD800 ≤ u.toNat ∧ u.toNat < 0xDC00 := by
  simp [isHighSurrogate, UInt16.le_iff_toNat_le, UInt16.lt_iff_toNat_lt]

theorem isLowSurrogate_iff : isLowSurrogate u = true ↔ 0xDC00 ≤ u.toNat ∧ u.toNat < 0xE000 := by
  simp [isLowSurrogate, UInt16.le_iff_toNat_le, UInt16.lt_iff_toNat_lt]

theorem ofSurrogates_eq (h : ¬ c.toNat < 0x10000) :
    ofSurrogates (0xD800 + (c.toNat - 0x10000) / 0x400).toUInt16
      (0xDC00 + (c.toNat - 0x10000) % 0x400).toUInt16 = c := by
  have hvalid := Encoding.toNat_valid c
  have hnumber : 0x10000 +
      ((0xD800 + (c.toNat - 0x10000) / 0x400).toUInt16.toNat - 0xD800) * 0x400 +
      ((0xDC00 + (c.toNat - 0x10000) % 0x400).toUInt16.toNat - 0xDC00) = c.toNat := by
    simp
    omega
  rw [ofSurrogates, hnumber, Char.ofNat_toNat]

theorem glyph?_unit (a b : List UInt16) (hsmall : c.toNat < 0x10000) {e : Nat}
    (he : a.length + 1 ≤ e) :
    glyph? (a ++ c.toNat.toUInt16 :: b) a.length e =
      if c = '\x00' then none else some ⟨c, none, 1⟩ := by
  have hvalid := Encoding.toNat_valid c
  have hunit : c.toNat.toUInt16.toNat = c.toNat := by simpa using Nat.mod_eq_of_lt hsmall
  have hzero : c.toNat.toUInt16 = 0 ↔ c = '\x00' := by
    rw [← UInt16.toNat_inj, hunit, ← Char.toNat_inj]
    rfl
  -- The unit stands for itself: no scalar has the number of a surrogate.
  have hhigh : isHighSurrogate c.toNat.toUInt16 = false := by
    rw [Bool.eq_false_iff, Ne, isHighSurrogate_iff, hunit]
    omega
  have hlow : isLowSurrogate c.toNat.toUInt16 = false := by
    rw [Bool.eq_false_iff, Ne, isLowSurrogate_iff, hunit]
    omega
  have hlt : a.length < e := he
  simp only [glyph?, if_pos hlt, List.getElem?_append_right, Nat.le_refl, Nat.sub_self,
    List.getElem?_cons_zero, hhigh, hlow, hunit, Char.ofNat_toNat, hzero]
  rfl

theorem glyph?_pair (a b : List UInt16) (hlarge : ¬ c.toNat < 0x10000) {e : Nat}
    (he : a.length + 2 ≤ e) :
    glyph? (a ++ (0xD800 + (c.toNat - 0x10000) / 0x400).toUInt16 ::
        (0xDC00 + (c.toNat - 0x10000) % 0x400).toUInt16 :: b) a.length e = some ⟨c, none, 2⟩ := by
  have hvalid := Encoding.toNat_valid c
  -- Of the two halves only their values matter below.
  have hpair := ofSurrogates_eq hlarge
  generalize hhigh : (0xD800 + (c.toNat - 0x10000) / 0x400).toUInt16 = high at hpair ⊢
  generalize hlow : (0xDC00 + (c.toNat - 0x10000) % 0x400).toUInt16 = low at hpair ⊢
  have hn : high.toNat = 0xD800 + (c.toNat - 0x10000) / 0x400 := by
    rw [← hhigh]
    simp
    omega
  have hm : low.toNat = 0xDC00 + (c.toNat - 0x10000) % 0x400 := by
    rw [← hlow]
    simp
    omega
  have hzero : high ≠ 0 := by
    rw [Ne, ← UInt16.toNat_inj, hn]
    simp
  have hishigh : isHighSurrogate high = true := by
    rw [isHighSurrogate_iff, hn]
    omega
  have hislow : isLowSurrogate low = true := by
    rw [isLowSurrogate_iff, hm]
    omega
  have hlt : a.length < e := by omega
  have hlt' : a.length + 1 < e := he
  have hsecond : (a ++ high :: low :: b)[a.length + 1]? = some low := by
    rw [List.getElem?_append_right (Nat.le_add_right _ _), Nat.add_sub_cancel_left]
    rfl
  simp only [glyph?, if_pos hlt, if_pos hlt', hsecond, List.getElem?_append_right, Nat.le_refl,
    Nat.sub_self, List.getElem?_cons_zero, if_neg hzero, hishigh, hislow, if_true, hpair]

theorem glyph?_encode (a b : List Char) {e : Nat}
    (he : (encode a).length + (encodeChar c).length ≤ e) :
    glyph? (encode (a ++ c :: b)) (encode a).length e =
      if c = '\x00' then none else some ⟨c, none, (encodeChar c).length⟩ := by
  have happend : encode (a ++ c :: b) = encode a ++ (encodeChar c ++ encode b) := by
    simp [encode]
  rw [happend]
  by_cases hsmall : c.toNat < 0x10000
  · have hchar : encodeChar c = [c.toNat.toUInt16] := if_pos hsmall
    rw [hchar] at he ⊢
    exact glyph?_unit (encode a) (encode b) hsmall he
  · have hchar : encodeChar c = [(0xD800 + (c.toNat - 0x10000) / 0x400).toUInt16,
        (0xDC00 + (c.toNat - 0x10000) % 0x400).toUInt16] := if_neg hsmall
    have hc : c ≠ '\x00' := by
      intro h
      rw [h] at hsmall
      exact hsmall (by decide)
    rw [hchar] at he ⊢
    rw [if_neg hc]
    exact glyph?_pair (encode a) (encode b) hsmall he

end Utf16

namespace Utf8

theorem glyph?_append {c : Char} (a b : List Char) {e : Nat} (he : size a + c.utf8Size ≤ e) :
    glyph? (a ++ c :: b) (size a) e =
      if c = '\x00' then none else some ⟨c, none, c.utf8Size⟩ := by
  have hlt : size a < e := by
    have := c.utf8Size_pos
    omega
  simp only [glyph?, if_pos hlt, locate_size_append, if_pos he]

end Utf8

namespace Encoding

variable {enc : Encoding} {c : Char}

theorem glyph?_source (hfit : enc.Holds c) (a b : List Char) {e : Nat}
    (he : (enc.source a).size + (enc.units c).length ≤ e) :
    (enc.source (a ++ c :: b)).glyph? (enc.source a).size e =
      if c = '\x00' then none else some ⟨c, none, (enc.units c).length⟩ := by
  cases enc with
  | latin1 =>
    have hle : c.toNat ≤ 0xFF := hfit
    have hbyte : c.toNat.toUInt8.toNat = c.toNat := by
      simpa using Nat.mod_eq_of_lt (show c.toNat < 256 by omega)
    have hzero : c.toNat.toUInt8 = 0 ↔ c = '\x00' := by
      rw [← UInt8.toNat_inj, hbyte, ← Char.toNat_inj]
      rfl
    have hget : ((a ++ c :: b).map fun c => c.toNat.toUInt8)[a.length]? = some c.toNat.toUInt8 := by
      simp
    have hsize : (latin1.source a).size = a.length := by simp [source, Source.size]
    have hlt : a.length < e := by rwa [hsize] at he
    rw [hsize]
    simp only [source, Source.glyph?, if_pos hlt, hget, Option.filter_some]
    by_cases hc : c = '\x00'
    · simp [hc]
    · simp [hc, hzero, hbyte, units]
  | utf16 =>
    have hlength : (utf16.units c).length = (Utf16.encodeChar c).length := by simp [units]
    rw [hlength] at he ⊢
    exact Utf16.glyph?_encode a b he
  | scalars =>
    have hlt : a.length < e := he
    simp only [source, Source.size, Source.glyph?, if_pos hlt, List.getElem?_append_right,
      Nat.le_refl, Nat.sub_self, List.getElem?_cons_zero, Option.filter_some]
    by_cases hc : c = '\x00' <;> simp [hc, units]
  | utf8 =>
    have hlength : (utf8.units c).length = c.utf8Size := by simp [units]
    rw [hlength] at he ⊢
    exact Utf8.glyph?_append a b he

end Encoding

end Recognition
