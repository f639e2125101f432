import Recognition.Proofs.Http.Cursor
import Recognition.Proofs.Sgml.ReferenceSyntax

namespace Recognition

open Http (Checked)

namespace Utf16

/-- The units of a range, which has to lie in the text. -/
def unitsIn (units : List UInt16) (s : Span) : Checked (List UInt16) :=
  if s.start ≤ s.stop ∧ s.stop ≤ units.length then .ok ((units.take s.stop).drop s.start)
  else .error (.range s)

/-- The character in front. A surrogate without its partner is none. -/
def front? : List UInt16 → Option Char
  | [] => none
  | u :: us =>
    if isHighSurrogate u then (us.head?.filter isLowSurrogate).map (ofSurrogates u)
    else if isLowSurrogate u then none
    else some (Char.ofNat u.toNat)

def frontGlyph (units : List UInt16) : Glyph :=
  match front? units with
  | some c => ⟨c, none, (encodeChar c).length⟩
  | none => .replacement

/-- The glyph of two units, or of those of them that are before `e`. -/
def checkedGlyphAt (units : List UInt16) (pos e : Nat) : Checked Glyph := do
  return frontGlyph (← unitsIn units ⟨pos, min (min e (pos + 2)) units.length⟩)

variable {units : List UInt16} {u v : UInt16} {pos e stop : Nat}

theorem length_encodeChar_ofSurrogates (hu : isHighSurrogate u = true)
    (hv : isLowSurrogate v = true) : (encodeChar (ofSurrogates u v)).length = 2 := by
  rw [isHighSurrogate_iff] at hu
  rw [isLowSurrogate_iff] at hv
  have hvalid : (0x10000 + (u.toNat - 0xD800) * 0x400 + (v.toNat - 0xDC00)).isValidChar := by
    right
    omega
  have hlarge : ¬ (ofSurrogates u v).toNat < 0x10000 := by
    rw [ofSurrogates, Char.ofNat, dif_pos hvalid]
    change ¬ 0x10000 + (u.toNat - 0xD800) * 0x400 + (v.toNat - 0xDC00) < 0x10000
    omega
  rw [encodeChar, if_neg hlarge]
  rfl

theorem length_encodeChar_ofNat (hhigh : ¬ isHighSurrogate u = true)
    (hlow : ¬ isLowSurrogate u = true) : (encodeChar (Char.ofNat u.toNat)).length = 1 := by
  rw [isHighSurrogate_iff] at hhigh
  rw [isLowSurrogate_iff] at hlow
  have hlt : u.toNat < 0x10000 := u.toNat_lt
  have hvalid : u.toNat.isValidChar := by
    unfold Nat.isValidChar
    omega
  have hsmall : (Char.ofNat u.toNat).toNat < 0x10000 := by
    rwa [Char.ofNat, dif_pos hvalid]
  rw [encodeChar, if_pos hsmall]
  rfl

theorem exists_tail_of_lt (hu : units[pos]? = some u) (hlt : pos < stop) :
    ∃ us, (units.take stop).drop pos = u :: us ∧
      us.head? = if pos + 1 < stop then units[pos + 1]? else none := by
  have hget : (units.take stop)[pos]? = some u := by rw [List.getElem?_take_of_lt hlt, hu]
  obtain ⟨hin, rfl⟩ := List.getElem?_eq_some_iff.1 hget
  refine ⟨_, List.drop_eq_getElem_cons hin, ?_⟩
  rw [List.head?_drop, List.getElem?_take]

theorem checkedGlyphAt_eq (hlt : pos < e) (hle : e ≤ units.length) :
    checkedGlyphAt units pos e =
      .ok (frontGlyph ((units.take (min e (pos + 2))).drop pos)) := by
  have hstop : min (min e (pos + 2)) units.length = min e (pos + 2) :=
    Nat.min_eq_left (Nat.le_trans (Nat.min_le_left _ _) hle)
  have hslice : unitsIn units ⟨pos, min e (pos + 2)⟩ =
      .ok ((units.take (min e (pos + 2))).drop pos) :=
    if_pos ⟨by dsimp only; omega, Nat.le_trans (Nat.min_le_left _ _) hle⟩
  rw [checkedGlyphAt, hstop, hslice]
  rfl

theorem glyph?_eq_frontGlyph (hu : units[pos]? = some u) (hne : u ≠ 0) (hlt : pos < e) :
    glyph? units pos e = some (frontGlyph ((units.take (min e (pos + 2))).drop pos)) := by
  have hlt' : pos < min e (pos + 2) := by omega
  obtain ⟨us, hfront, hnext⟩ := exists_tail_of_lt hu hlt'
  have hin : pos + 1 < min e (pos + 2) ↔ pos + 1 < e := by omega
  rw [if_congr hin rfl rfl] at hnext
  simp only [glyph?, if_pos hlt, hu, if_neg hne, ← hnext, hfront, frontGlyph, front?]
  by_cases hhigh : isHighSurrogate u = true
  · rw [if_pos hhigh, if_pos hhigh]
    cases us.head? with
    | none => rfl
    | some v =>
      by_cases hlow : isLowSurrogate v = true
      · simp only [hlow, if_true, Option.filter_some, Option.map_some,
          length_encodeChar_ofSurrogates hhigh hlow]
      · simp [hlow, Option.filter_some]
  · rw [if_neg hhigh, if_neg hhigh]
    by_cases hlow : isLowSurrogate u = true
    · rw [if_pos hlow, if_pos hlow]
    · simp only [if_neg hlow, length_encodeChar_ofNat hhigh hlow]

end Utf16

namespace Utf8

/-- The character that begins at `pos`, or a replacement if none does or it does not end before
`e`. -/
def glyphAt (text : List Char) (pos e : Nat) : Glyph :=
  match locate text pos with
  | .boundary (c :: _) => if pos + c.utf8Size ≤ e then ⟨c, none, c.utf8Size⟩ else .replacement
  | _ => .replacement

variable {text : List Char} {pos e : Nat}

theorem byte?_ne_zero {u : Nat} (hu : (byte? text pos).map UInt8.toNat = some u) (hne : u ≠ 0) :
    byte? text pos ≠ some 0 := by
  intro h
  rw [h] at hu
  exact hne (Option.some.inj hu).symm

theorem glyph?_eq_glyphAt (hlt : pos < e) (hle : e ≤ size text) (hne : byte? text pos ≠ some 0) :
    glyph? text pos e = some (glyphAt text pos e) := by
  rcases inside_or_exists (Nat.lt_of_lt_of_le hlt hle) with hin | ⟨as, c, cs, rfl, rfl⟩
  · have hinside := hin []
    rw [List.append_nil] at hinside
    simp only [glyph?, glyphAt, hinside, if_pos hlt]
  · have hc : c ≠ '\x00' := by
      rintro rfl
      exact hne ((byte?_eq_some_iff (by decide)).2 ⟨as, cs, rfl, rfl⟩)
    simp only [glyph?, glyphAt, locate_size_append, if_pos hlt, if_neg hc]
    split <;> rfl

end Utf8

namespace Sgml

/-- The reference at byte `pos`, if one is read before `e` and the end of the text. -/
def checkedReference? (text : List Char) (pos e : Nat) : Checked (Option Glyph) := do
  let bytes := Utf8.bytes text
  let stop := min e bytes.length
  if stop ≤ pos then return none
  if (← Checked.byteAt bytes pos) ≠ 0x26 then return none
  let some n := closingAt? (← Checked.slice bytes ⟨pos + 1, stop⟩) | return none
  let close := n + (pos + 1)
  let some body := part? text (pos + 1) close | return none
  let width ← Checked.difference (close + 1) pos
  return (wordMeaning? body).bind fun scalars => Glyph.ofScalars? scalars width

def checkedGlyphAt (text : List Char) (pos e : Nat) : Checked Glyph := do
  let reference ←
    if (← Checked.byteAt (Utf8.bytes text) pos) = 0x26 then checkedReference? text pos e
    else pure none
  return reference.getD (Utf8.glyphAt text pos e)

variable {text : List Char} {pos e : Nat} {b : UInt8}

theorem checkedReference?_eq (text : List Char) (pos e : Nat) :
    checkedReference? text pos e = .ok (Source.reference? text pos e) := by
  rw [← byteReference?_eq, checkedReference?, byteReference?]
  have hstop : min e (Utf8.bytes text).length ≤ (Utf8.bytes text).length := Nat.min_le_right _ _
  generalize min e (Utf8.bytes text).length = stop at hstop ⊢
  by_cases hle : stop ≤ pos
  · rw [if_pos hle, if_neg fun h => Nat.not_lt.2 hle h.1]
    rfl
  · have hlt := Nat.lt_of_not_le hle
    have hget := List.getElem?_eq_getElem (Nat.lt_of_lt_of_le hlt hstop)
    have hiff : (Utf8.bytes text)[pos]? = some 0x26 ↔ (Utf8.bytes text)[pos] = 0x26 := by
      rw [hget, Option.some_inj]
    rw [if_neg hle, Checked.byteAt_eq_ok hget, Checked.ok_bind]
    by_cases hamp : (Utf8.bytes text)[pos] = 0x26
    · have hslice : Checked.slice (Utf8.bytes text) ⟨pos + 1, stop⟩ =
          .ok (((Utf8.bytes text).take stop).drop (pos + 1)) := if_pos ⟨hlt, hstop⟩
      rw [if_neg (not_not.2 hamp), if_pos ⟨hlt, hiff.2 hamp⟩, hslice, Checked.ok_bind]
      cases closingAt? (((Utf8.bytes text).take stop).drop (pos + 1)) with
      | none => rfl
      | some n =>
        have hwidth : Checked.difference (n + (pos + 1) + 1) pos = .ok (n + (pos + 1) + 1 - pos) :=
          if_pos (by omega)
        simp only [hwidth, Checked.ok_bind, Option.bind_eq_bind, Option.bind_some]
        cases part? text (pos + 1) (n + (pos + 1)) with
        | none => rfl
        | some body => rfl
    · rw [if_pos hamp, if_neg fun h => hamp (hiff.1 h.2)]
      rfl

theorem reference?_eq_none_of_byte? (h : Utf8.byte? text pos ≠ some 0x26) :
    Source.reference? text pos e = none := by
  rw [Utf8.byte?_eq_getElem?] at h
  rw [← byteReference?_eq]
  exact if_neg fun hamp => h hamp.2

theorem checkedGlyphAt_eq (h : Utf8.byte? text pos = some b) :
    checkedGlyphAt text pos e =
      .ok ((Source.reference? text pos e).getD (Utf8.glyphAt text pos e)) := by
  have hbyte : Checked.byteAt (Utf8.bytes text) pos = .ok b := by
    rw [Utf8.byte?_eq_getElem?] at h
    exact Checked.byteAt_eq_ok h
  rw [checkedGlyphAt, hbyte, Checked.ok_bind]
  by_cases hamp : b = 0x26
  · rw [if_pos hamp, checkedReference?_eq, Checked.ok_bind]
    rfl
  · have hne : Utf8.byte? text pos ≠ some 0x26 := by
      rw [h]
      exact fun heq => hamp (Option.some.inj heq)
    rw [if_neg hamp, reference?_eq_none_of_byte? hne]
    rfl

end Sgml

namespace Source

/-- The unit at `pos`, where there has to be one. -/
def unitAt (src : Source) (pos : Nat) : Checked Nat :=
  match src.unit? pos with
  | some u => .ok u
  | none => .error (.index pos)

def checkedGlyphAt (src : Source) (pos e : Nat) : Checked Glyph :=
  match src with
  | latin1 _ | scalars _ => do return ⟨Char.ofNat (← src.unitAt pos), none, 1⟩
  | utf16 units => Utf16.checkedGlyphAt units pos e
  | utf8 text => return Utf8.glyphAt text pos e
  | sgml text => Sgml.checkedGlyphAt text pos e

/-- The glyph at `pos` under a bound. -/
def checkedGlyph? (src : Source) (pos : Nat) (stop : Option Nat) : Checked (Option Glyph) := do
  let e := src.limit stop
  if e ≤ pos then return none
  if (← src.unitAt pos) = 0 then return none
  return some (← src.checkedGlyphAt pos e)

variable {src : Source} {pos e u : Nat} {g : Glyph}

theorem exists_unit? (h : pos < src.size) : ∃ u, src.unit? pos = some u := by
  rw [← Option.ne_none_iff_exists']
  cases src with
  | latin1 bytes => simpa [unit?, size] using h
  | utf16 units => simpa [unit?, size] using h
  | scalars chars => simpa [unit?, size] using h
  | utf8 text => simpa [unit?, size, Utf8.byte?_eq_getElem?] using h
  | sgml text => simpa [unit?, size, Utf8.byte?_eq_getElem?] using h

theorem unitAt_eq_ok (h : src.unit? pos = some u) : src.unitAt pos = .ok u := by
  rw [unitAt, h]

theorem exists_checkedGlyphAt (hu : src.unit? pos = some u) (hne : u ≠ 0) (hlt : pos < e)
    (hle : e ≤ src.size) : ∃ g, src.checkedGlyphAt pos e = .ok g ∧ src.glyph? pos e = some g := by
  have hunit := unitAt_eq_ok hu
  cases src with
  | latin1 bytes =>
    obtain ⟨b, hb, rfl⟩ := Option.map_eq_some_iff.1 hu
    have hb0 : b ≠ 0 := fun h => hne (congrArg UInt8.toNat h)
    refine ⟨_, by rw [checkedGlyphAt, hunit]; rfl, ?_⟩
    simp [glyph?, hlt, hb, Option.filter_some, hb0]
  | utf16 units =>
    obtain ⟨v, hv, rfl⟩ := Option.map_eq_some_iff.1 hu
    have hv0 : v ≠ 0 := fun h => hne (congrArg UInt16.toNat h)
    exact ⟨_, Utf16.checkedGlyphAt_eq hlt hle, Utf16.glyph?_eq_frontGlyph hv hv0 hlt⟩
  | scalars chars =>
    obtain ⟨c, hc, rfl⟩ := Option.map_eq_some_iff.1 hu
    have hc0 : c ≠ '\x00' := fun h => hne (congrArg Char.toNat h)
    refine ⟨_, by rw [checkedGlyphAt, hunit]; rfl, ?_⟩
    simp [glyph?, hlt, hc, Option.filter_some, hc0]
  | utf8 text =>
    exact ⟨_, rfl, Utf8.glyph?_eq_glyphAt hlt hle (Utf8.byte?_ne_zero hu hne)⟩
  | sgml text =>
    obtain ⟨b, hb, -⟩ := Option.map_eq_some_iff.1 hu
    refine ⟨_, Sgml.checkedGlyphAt_eq hb, ?_⟩
    rw [glyph?, Utf8.glyph?_eq_glyphAt hlt hle (Utf8.byte?_ne_zero hu hne)]
    cases reference? text pos e <;> rfl

theorem glyph?_eq_none_of_unit? (h : src.unit? pos = some 0) : src.glyph? pos e = none := by
  rcases Nat.lt_or_ge pos e with hlt | hle
  · rw [← glyph?_before_nul h (Nat.le_refl pos) hlt]
    exact glyph?_eq_none (Nat.le_refl pos)
  · exact glyph?_eq_none hle

theorem glyph?_eq_none_iff (he : e ≤ src.size) :
    src.glyph? pos e = none ↔ e ≤ pos ∨ src.unit? pos = some 0 := by
  constructor
  · intro hnone
    by_contra hnot
    rw [not_or] at hnot
    have hlt := Nat.lt_of_not_le hnot.1
    obtain ⟨u, hu⟩ := exists_unit? (Nat.lt_of_lt_of_le hlt he)
    have hne : u ≠ 0 := by
      rintro rfl
      exact hnot.2 hu
    obtain ⟨g, -, hg⟩ := exists_checkedGlyphAt hu hne hlt he
    rw [hnone] at hg
    cases hg
  · rintro (hle | hzero)
    · exact glyph?_eq_none hle
    · exact glyph?_eq_none_of_unit? hzero

theorem checkedGlyph?_eq (src : Source) (pos : Nat) (stop : Option Nat) :
    src.checkedGlyph? pos stop = .ok (src.glyph? pos (src.limit stop)) := by
  have hsize := src.limit_le_size stop
  rw [checkedGlyph?]
  generalize src.limit stop = e at hsize ⊢
  by_cases hle : e ≤ pos
  · rw [if_pos hle, glyph?_eq_none hle]
    rfl
  · have hlt := Nat.lt_of_not_le hle
    obtain ⟨u, hu⟩ := exists_unit? (Nat.lt_of_lt_of_le hlt hsize)
    rw [if_neg hle, unitAt_eq_ok hu, Checked.ok_bind]
    by_cases hzero : u = 0
    · rw [if_pos hzero, glyph?_eq_none_of_unit? (hzero ▸ hu)]
      rfl
    · obtain ⟨g, hread, hg⟩ := exists_checkedGlyphAt hu hzero hlt hsize
      rw [if_neg hzero, hread, hg]
      rfl

theorem exists_unit?_ne_zero (he : e ≤ src.size) (hg : src.glyph? pos e = some g) {p : Nat}
    (hp : pos ≤ p) (hlt : p < pos + g.width) : ∃ u, src.unit? p = some u ∧ u ≠ 0 := by
  -- A zero unit ends the text before the glyph does, and so is in none.
  have hbounds := glyph?_bounds hg
  have hpe : p < e := Nat.lt_of_lt_of_le hlt hbounds.2
  obtain ⟨u, hu⟩ := exists_unit? (Nat.lt_of_lt_of_le hpe he)
  refine ⟨u, hu, ?_⟩
  rintro rfl
  have hcut := glyph?_before_nul hu hp hpe
  rw [hg] at hcut
  have := glyph?_bounds hcut
  omega

/-- Whatever a text holds, and wherever in it a glyph is looked for under a bound, every unit and
every range that is asked for is there. There is no glyph exactly at the bound, beyond it and at a
zero unit. A glyph is of one scalar or two, and takes units before the bound, at least one and none
of them zero. -/
theorem glyph_in_bounds (src : Source) (pos : Nat) (stop : Option Nat) :
    src.checkedGlyph? pos stop = .ok (src.glyph? pos (src.limit stop)) ∧
      (src.glyph? pos (src.limit stop) = none ↔ src.limit stop ≤ pos ∨ src.unit? pos = some 0) ∧
      ∀ g, src.glyph? pos (src.limit stop) = some g →
        (g.scalars.length = 1 ∨ g.scalars.length = 2) ∧ 1 ≤ g.width ∧
          pos + g.width ≤ src.limit stop ∧
          ∀ p, pos ≤ p → p < pos + g.width → ∃ u, src.unit? p = some u ∧ u ≠ 0 := by
  have hsize := src.limit_le_size stop
  refine ⟨src.checkedGlyph?_eq pos stop, glyph?_eq_none_iff hsize, ?_⟩
  intro g hg
  have hpos := g.scalars_length_pos
  have hle := g.scalars_length_le
  obtain ⟨hwidth, hstop⟩ := glyph?_bounds hg
  refine ⟨by omega, hwidth, hstop, ?_⟩
  intro p hp hlt
  exact exists_unit?_ne_zero hsize hg hp hlt

/-- A reference to two scalars, the `;` of which is the last unit before the bound. -/
theorem glyph_in_bounds_of_reference :
    let src := sgml ['x', '&', 's', 'm', 'a', 'c', 'r', ';', 'y']
    src.glyph? 1 (src.limit (some 8)) = some ⟨'s', some '\u0304', 7⟩ ∧
      src.checkedGlyph? 1 (some 8) = .ok (some ⟨'s', some '\u0304', 7⟩) ∧
      1 + 7 ≤ src.limit (some 8) ∧
      ∀ p, 1 ≤ p → p < 1 + 7 → ∃ u, src.unit? p = some u ∧ u ≠ 0 := by
  intro src
  have hglyph : src.glyph? 1 (src.limit (some 8)) = some ⟨'s', some '\u0304', 7⟩ := by
    decide +kernel
  obtain ⟨hchecked, -, hbounds⟩ := glyph_in_bounds src 1 (some 8)
  obtain ⟨-, -, hstop, hunits⟩ := hbounds _ hglyph
  rw [hglyph] at hchecked
  exact ⟨hglyph, hchecked, hstop, hunits⟩

/-- The second surrogate of a pair is alone when reading begins at it. -/
example : (utf16 [0xD83D, 0xDE00]).glyph? 1 2 = some .replacement := by decide

end Source

end Recognition
