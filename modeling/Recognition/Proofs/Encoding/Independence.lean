import Recognition.Proofs.Encoding.Units
import Recognition.Proofs.Mirror.Payment
import Recognition.Proofs.Mirror.Spelling

namespace Recognition

namespace Encoding

open Glyph (unitsBefore unitsBefore_succ unitsBefore_lt_iff)

variable (enc : Encoding) (cs : List Char)

def Fits : Prop := ∀ c ∈ cs, enc.Holds c

/-- The code units before scalar `k`. -/
def offset (k : Nat) : Nat := (enc.source (cs.take k)).size

def glyphs : List Glyph := cs.map fun c => ⟨c, none, (enc.units c).length⟩

theorem extent_glyphs : Glyph.extent (enc.glyphs cs) = (enc.source cs).size := by
  rw [size_source]
  induction cs with
  | nil => rfl
  | cons c cs ih => rw [List.flatMap_cons, List.length_append, ← ih]; rfl

theorem offset_eq (k : Nat) : enc.offset cs k = unitsBefore (enc.glyphs cs) k := by
  rw [offset, ← extent_glyphs, unitsBefore, glyphs, glyphs, List.map_take]

theorem offset_zero : enc.offset cs 0 = 0 := by
  rw [offset_eq, Glyph.unitsBefore_zero]

theorem offset_length : enc.offset cs cs.length = (enc.source cs).size := by
  rw [offset, List.take_length]

variable {cs}

theorem length_glyphs : (enc.glyphs cs).length = cs.length := List.length_map _

theorem width_pos_of_mem_glyphs : ∀ g ∈ enc.glyphs cs, 0 < g.width := by
  intro g hg
  obtain ⟨c, _, rfl⟩ := List.mem_map.1 hg
  exact List.length_pos_iff.2 (enc.units_ne_nil c)

theorem offset_succ {k : Nat} (hk : k < cs.length) :
    enc.offset cs (k + 1) = enc.offset cs k + (enc.units cs[k]).length := by
  rw [offset_eq, offset_eq, unitsBefore_succ (by rwa [length_glyphs])]
  simp [glyphs]

theorem offset_lt_iff {k l : Nat} (hk : k ≤ cs.length) (hl : l ≤ cs.length) :
    enc.offset cs k < enc.offset cs l ↔ k < l := by
  rw [offset_eq, offset_eq]
  apply unitsBefore_lt_iff enc.width_pos_of_mem_glyphs
  · rwa [length_glyphs]
  · rwa [length_glyphs]

theorem offset_scalars {k : Nat} (hk : k ≤ cs.length) : scalars.offset cs k = k := by
  simp [offset, source, Source.size, hk]

variable {enc}

theorem spells (hfit : enc.Fits cs) : (enc.source cs).Spells (enc.glyphs cs) where
  width_pos := enc.width_pos_of_mem_glyphs
  size_eq := (enc.extent_glyphs cs).symm
  glyph?_eq := by
    intro k e hk hke he
    rw [length_glyphs] at hk he
    have hsplit : cs.take k ++ cs[k] :: cs.drop (k + 1) = cs := by
      rw [← List.drop_eq_getElem_cons hk, List.take_append_drop]
    -- The bound does not cut the scalar, whatever the number of its units.
    have hnext : enc.offset cs (k + 1) ≤ enc.offset cs e := by
      have := enc.offset_lt_iff (l := k + 1) he hk
      omega
    rw [enc.offset_succ hk] at hnext
    have hglyph := glyph?_source (hfit cs[k] (List.getElem_mem hk)) (cs.take k) (cs.drop (k + 1))
      hnext
    rw [hsplit, ← offset] at hglyph
    rw [← offset_eq, ← offset_eq]
    simpa [glyphs] using hglyph

theorem scalars_glyphs (enc : Encoding) (cs : List Char) :
    (enc.glyphs cs).map Glyph.scalars = cs.map ([·]) := by
  simp [glyphs, Function.comp_def, Glyph.scalars]

theorem mirrors_of_spells {dst : Source} {gs : List Glyph} (hd : dst.Spells gs)
    (hscalars : gs.map Glyph.scalars = cs.map ([·])) :
    (Source.scalars cs).Mirrors dst (unitsBefore gs) (· ≤ cs.length) := by
  have hunits {k : Nat} (hk : k ≤ cs.length) : unitsBefore (scalars.glyphs cs) k = k := by
    rw [← offset_eq, offset_scalars hk]
  have hsrc : (scalars.source cs).Spells (scalars.glyphs cs) := spells fun _ _ => trivial
  apply hsrc.mirrors hd
  · rw [scalars_glyphs, hscalars]
  · rw [length_glyphs]
    intro k hk
    rw [hunits hk]
  · rw [length_glyphs]
    intro p
    constructor
    · intro hp
      exact ⟨p, hp, (hunits hp).symm⟩
    · rintro ⟨k, hk, rfl⟩
      rwa [hunits hk]

theorem mirrors (hfit : enc.Fits cs) :
    (Source.scalars cs).Mirrors (enc.source cs) (enc.offset cs) (· ≤ cs.length) := by
  have hoffset : enc.offset cs = unitsBefore (enc.glyphs cs) := funext (enc.offset_eq cs)
  rw [hoffset]
  exact mirrors_of_spells (spells hfit) (scalars_glyphs enc cs)

theorem unit?_offset_add {k i : Nat} (hk : k < cs.length) (hi : i < (enc.units cs[k]).length) :
    (enc.source cs).unit? (enc.offset cs k + i) = some (enc.units cs[k])[i] := by
  have hsplit : cs.flatMap enc.units =
      (cs.take k).flatMap enc.units ++
        (enc.units cs[k] ++ (cs.drop (k + 1)).flatMap enc.units) := by
    rw [← List.flatMap_cons, ← List.drop_eq_getElem_cons hk, ← List.flatMap_append,
      List.take_append_drop]
  rw [unit?_source, offset, size_source, hsplit, List.getElem?_append_right (Nat.le_add_right _ _),
    Nat.add_sub_cancel_left, List.getElem?_append_left hi, List.getElem?_eq_getElem hi]

theorem exists_unit?_offset_add (hfit : enc.Fits cs) {k i : Nat} (hk : k < cs.length)
    (hi : i < (enc.units cs[k]).length) :
    ∃ u, (enc.source cs).unit? (enc.offset cs k + i) = some u ∧
      (u = cs[k].toNat ∨ 0x80 ≤ u ∧ 0x80 ≤ cs[k].toNat) := by
  refine ⟨_, unit?_offset_add hk hi, ?_⟩
  exact eq_or_le_of_mem_units (hfit _ (List.getElem_mem hk)) (List.getElem_mem hi)

theorem isLineBreak_of_high {u : Nat} (h : 0x80 ≤ u) : isLineBreak u = false := by
  simp [isLineBreak]
  omega

theorem mirrorsLines (hfit : enc.Fits cs) :
    (Source.scalars cs).MirrorsLines (enc.source cs) (enc.offset cs) (· ≤ cs.length) where
  lineStart := by
    intro p hp
    cases p with
    | zero => simp [offset_zero]
    | succ k =>
      have hpos := List.length_pos_iff.2 (enc.units_ne_nil cs[k])
      obtain ⟨u, hu, hunit⟩ := exists_unit?_offset_add hfit hp (Nat.sub_lt hpos Nat.one_pos)
      rw [← Nat.add_sub_assoc hpos, ← enc.offset_succ hp] at hu
      have hne : enc.offset cs (k + 1) ≠ 0 := by
        rw [Nat.ne_zero_iff_zero_lt, ← enc.offset_zero cs,
          enc.offset_lt_iff (Nat.zero_le _) hp]
        exact k.succ_pos
      have hsrc : (Source.scalars cs).unit? (k + 1 - 1) = some cs[k].toNat := by
        simp [Source.unit?, List.getElem?_eq_getElem (Nat.lt_of_succ_le hp)]
      rw [hu, hsrc, beq_eq_false_iff_ne.2 hne, beq_eq_false_iff_ne.2 (Nat.succ_ne_zero k)]
      -- The unit before is the last of a scalar: the scalar itself, or no ASCII character.
      rcases hunit with rfl | ⟨hhigh, hhigh'⟩
      · rfl
      · simp [isLineBreak_of_high hhigh, isLineBreak_of_high hhigh']
  lineEnd := by
    intro p e hp he
    have hle : decide (enc.offset cs e ≤ enc.offset cs p) = decide (e ≤ p) := by
      have := enc.offset_lt_iff hp he
      exact decide_eq_decide.2 (by omega)
    simp only [Source.atEnd, hle]
    rcases Nat.lt_or_eq_of_le hp with hlt | rfl
    · have hpos := List.length_pos_iff.2 (enc.units_ne_nil cs[p])
      obtain ⟨u, hu, hunit⟩ := exists_unit?_offset_add hfit hlt hpos
      rw [Nat.add_zero] at hu
      have hsrc : (Source.scalars cs).unit? p = some cs[p].toNat := by
        simp [Source.unit?, List.getElem?_eq_getElem hlt]
      rw [hu, hsrc]
      rcases hunit with rfl | ⟨hhigh, hhigh'⟩
      · rfl
      · have hne : u ≠ 0 := by omega
        have hne' : cs[p].toNat ≠ 0 := by omega
        simp [isLineBreak_of_high hhigh, isLineBreak_of_high hhigh', hne, hne']
    · have hnone : (enc.source cs).unit? (enc.offset cs cs.length) = none := by
        rw [offset_length, unit?_source, size_source]
        simp
      have hsrc : (Source.scalars cs).unit? cs.length = none := by simp [Source.unit?]
      rw [hnone, hsrc]

/-- What `r` recognizes in the text at scalar `i`, and finds from there on, it recognizes and finds
in the encoded text at the units where that scalar is. -/
def Alike {α : Type} [MapOffsets α] (enc : Encoding) (cs : List Char) (i : Nat) (stop : Option Nat)
    (flags : Flags) (r : Recognizer α) : Prop :=
  r.Mirrors (.scalars cs) (enc.source cs) (enc.offset cs) i stop flags ∧
    r.MirrorsSearch (.scalars cs) (enc.source cs) (enc.offset cs) i stop flags

section

variable {i : Nat} {stop : Option Nat} {flags : Flags} (hfit : enc.Fits cs) (hi : i ≤ cs.length)
  (hstop : ∀ j ∈ stop, j ≤ cs.length)

include hfit hi hstop

theorem alike_of_mirrors {α : Type} [MapOffsets α] {r : Recognizer α}
    (hr : ∀ i ≤ cs.length, ∀ stop : Option Nat, (∀ j ∈ stop, j ≤ cs.length) →
      r.Mirrors (.scalars cs) (enc.source cs) (enc.offset cs) i stop flags) :
    enc.Alike cs i stop flags r := by
  refine ⟨hr i hi stop hstop, ?_⟩
  apply Recognizer.mirrorsSearch (mirrors hfit) hi hstop
  intro p hp
  apply hr p hp
  intro j hj
  obtain rfl := Option.some.inj hj
  exact (mirrors hfit).boundary_limit hstop

/-- A rule, an account number or a payment reference is recognized and found alike in every encoding
that has the text. -/
theorem recognized_alike :
    (∀ (g : Grammar) (id : Nat), enc.Alike cs i stop flags (g.rule id)) ∧
      ∀ sep : Payment.Separator, sep.Offered →
        enc.Alike cs i stop flags (Payment.Iban.recognizer sep) ∧
        enc.Alike cs i stop flags (Payment.CreditorReference.recognizer sep) ∧
        enc.Alike cs i stop flags (Payment.SiReference.recognizer sep) := by
  have hmirrors := mirrors hfit
  have hlines := mirrorsLines hfit
  constructor
  · intro g id
    apply alike_of_mirrors hfit hi hstop
    intro p hp e he
    exact g.mirrors_rule hmirrors hp he (.inr hlines)
  · intro sep hoffered
    have hsep := hoffered.mirrors hmirrors hlines flags
    refine ⟨?_, ?_, ?_⟩
    · apply alike_of_mirrors hfit hi hstop
      intro p hp e he
      exact Payment.Iban.mirrorsRead.mirrors_recognizer hmirrors hsep hp he
    · apply alike_of_mirrors hfit hi hstop
      intro p hp e he
      exact Payment.CreditorReference.mirrorsRead.mirrors_recognizer hmirrors hsep hp he
    · apply alike_of_mirrors hfit hi hstop
      intro p hp e he
      exact Payment.SiReference.mirrorsRead.mirrors_recognizer hmirrors hsep hp he

end

/-- A character in two units of UTF-16 and one in a single unit. -/
theorem recognized_alike_beyond_first_plane :
    utf16.Fits ['😀', 'A'] ∧
      Grammar.match? ⟨.ascii, #[.any, .sequence [0, 0]]⟩ 1 (.utf16 [0xD83D, 0xDE00, 0x41]) 0 none
        .none = some ⟨⟨0, 3⟩, none, [.leaf 0 2, .leaf 2 3]⟩ := by
  have hfit : utf16.Fits ['😀', 'A'] := fun _ _ => trivial
  have halike : utf16.Alike ['😀', 'A'] 0 none .none
      (Grammar.rule ⟨.ascii, #[.any, .sequence [0, 0]]⟩ 1) :=
    (recognized_alike hfit (Nat.zero_le _) (by simp)).1 _ _
  have hmatch : Grammar.match? ⟨.ascii, #[.any, .sequence [0, 0]]⟩ 1 (.scalars ['😀', 'A']) 0 none
      .none = some ⟨⟨0, 2⟩, none, [.leaf 0 1, .leaf 1 2]⟩ := by decide +kernel
  have hsource : utf16.source ['😀', 'A'] = .utf16 [0xD83D, 0xDE00, 0x41] := rfl
  have hone : utf16.offset ['😀', 'A'] 1 = 2 := by decide
  have htwo : utf16.offset ['😀', 'A'] 2 = 3 := by decide
  refine ⟨hfit, ?_⟩
  simpa [Recognizer.Mirrors, Grammar.rule, hmatch, hsource, offset_zero, hone, htwo, mapOffsets,
    Match.mapOffsets_mk, Span.mapOffsets] using halike.1

end Encoding

end Recognition
