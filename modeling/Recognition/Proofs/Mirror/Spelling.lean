import Recognition.Proofs.Mirror.Source

namespace Recognition

namespace Glyph

theorem eq_of_scalars {g h : Glyph} (hscalars : g.scalars = h.scalars)
    (hwidth : g.width = h.width) : g = h := by
  apply Option.some.inj
  rw [← ofScalars?_scalars g, ← ofScalars?_scalars h, hscalars, hwidth]

def extent : List Glyph → Nat
  | [] => 0
  | g :: gs => g.width + extent gs

theorem extent_append (gs hs : List Glyph) : extent (gs ++ hs) = extent gs + extent hs := by
  induction gs with
  | nil => simp [extent]
  | cons g gs ih => rw [List.cons_append, extent, extent, ih, Nat.add_assoc]

/-- The units before glyph `k`. -/
def unitsBefore (gs : List Glyph) (k : Nat) : Nat := extent (gs.take k)

variable {gs : List Glyph}

theorem unitsBefore_zero : unitsBefore gs 0 = 0 := rfl

theorem unitsBefore_cons (g : Glyph) (gs : List Glyph) (k : Nat) :
    unitsBefore (g :: gs) (k + 1) = g.width + unitsBefore gs k := rfl

theorem unitsBefore_length : unitsBefore gs gs.length = extent gs := by
  rw [unitsBefore, List.take_length]

theorem unitsBefore_succ {k : Nat} (hk : k < gs.length) :
    unitsBefore gs (k + 1) = unitsBefore gs k + gs[k].width := by
  rw [unitsBefore, unitsBefore, List.take_succ_eq_append_getElem hk, extent_append]
  rfl

theorem unitsBefore_lt (hgs : ∀ g ∈ gs, 0 < g.width) {k l : Nat} (hkl : k < l)
    (hl : l ≤ gs.length) : unitsBefore gs k < unitsBefore gs l := by
  induction hkl with
  | refl =>
    have := hgs _ (List.getElem_mem hl)
    rw [Nat.succ_eq_add_one, unitsBefore_succ hl]
    omega
  | step hkl ih =>
    have := ih (Nat.le_of_succ_le hl)
    rw [Nat.succ_eq_add_one, unitsBefore_succ hl]
    omega

theorem unitsBefore_lt_iff (hgs : ∀ g ∈ gs, 0 < g.width) {k l : Nat} (hk : k ≤ gs.length)
    (hl : l ≤ gs.length) : unitsBefore gs k < unitsBefore gs l ↔ k < l := by
  constructor
  · intro hlt
    rcases Nat.lt_trichotomy k l with hkl | rfl | hlk
    · exact hkl
    · omega
    · have := unitsBefore_lt hgs hlk hk
      omega
  · intro hkl
    exact unitsBefore_lt hgs hkl hl

theorem unitsBefore_inj (hgs : ∀ g ∈ gs, 0 < g.width) {k l : Nat} (hk : k ≤ gs.length)
    (hl : l ≤ gs.length) : unitsBefore gs k = unitsBefore gs l ↔ k = l := by
  have hkl := unitsBefore_lt_iff hgs hk hl
  have hlk := unitsBefore_lt_iff hgs hl hk
  omega

end Glyph

namespace Source

open Glyph (extent unitsBefore unitsBefore_length unitsBefore_succ unitsBefore_lt_iff)

/-- The source is made up of the glyphs, of which a NUL is none to be read. -/
structure Spells (src : Source) (gs : List Glyph) : Prop where
  width_pos : ∀ g ∈ gs, 0 < g.width
  size_eq : src.size = extent gs
  glyph?_eq : ∀ {k e : Nat} (hk : k < gs.length), k < e → e ≤ gs.length →
    src.glyph? (unitsBefore gs k) (unitsBefore gs e) =
      if gs[k].base = '\x00' then none else some gs[k]

variable {src dst : Source} {gs gs' : List Glyph} {φ : Nat → Nat} {B : Nat → Prop}

theorem Spells.glyph?_of_le (h : src.Spells gs) {k e : Nat} (hk : k ≤ gs.length)
    (hek : e ≤ k) : src.glyph? (unitsBefore gs k) (unitsBefore gs e) = none := by
  apply glyph?_eq_none
  have := unitsBefore_lt_iff h.width_pos hk (Nat.le_trans hek hk)
  omega

theorem Spells.width_of_glyph? (h : src.Spells gs) {k l : Nat} (hk : k ≤ gs.length)
    (hl : l ≤ gs.length) {g : Glyph}
    (hg : src.glyph? (unitsBefore gs k) (unitsBefore gs l) = some g) :
    ∃ hlt : k < gs.length, g.width = gs[k].width := by
  by_cases hkl : k < l
  · have hlt : k < gs.length := Nat.lt_of_lt_of_le hkl hl
    rw [h.glyph?_eq hlt hkl hl] at hg
    split at hg
    · simp at hg
    · obtain rfl := Option.some.inj hg
      exact ⟨hlt, rfl⟩
  · rw [h.glyph?_of_le hk (Nat.le_of_not_lt hkl)] at hg
    simp at hg

section

variable (hs : src.Spells gs) (hd : dst.Spells gs')
  (hscalars : gs.map Glyph.scalars = gs'.map Glyph.scalars)
  (hφ : ∀ k ≤ gs.length, φ (unitsBefore gs k) = unitsBefore gs' k)

include hscalars in
theorem length_eq_of_scalars : gs.length = gs'.length := by
  simpa using congrArg List.length hscalars

include hscalars hφ in
theorem getElem_eq_mirror {k : Nat} (hk : k < gs.length) (hk' : k < gs'.length) :
    gs'[k] = gs[k].mirror φ (unitsBefore gs k) := by
  apply Glyph.eq_of_scalars
  · have hsame := List.getElem_of_eq hscalars (i := k) (by simpa using hk)
    rw [Glyph.scalars_mirror]
    simpa using hsame.symm
  · rw [Glyph.mirror, ← unitsBefore_succ hk, hφ k (Nat.le_of_lt hk), hφ (k + 1) hk,
      unitsBefore_succ hk', Nat.add_sub_cancel_left]

include hs hd hscalars hφ

theorem Spells.glyph?_image {k l : Nat} (hk : k ≤ gs.length) (hl : l ≤ gs.length) :
    dst.glyph? (unitsBefore gs' k) (unitsBefore gs' l) =
      (src.glyph? (unitsBefore gs k) (unitsBefore gs l)).map
        (Glyph.mirror φ (unitsBefore gs k)) := by
  have hlength := length_eq_of_scalars hscalars
  by_cases hkl : k < l
  · have hlt : k < gs.length := Nat.lt_of_lt_of_le hkl hl
    have hlt' : k < gs'.length := hlength ▸ hlt
    rw [hs.glyph?_eq hlt hkl hl, hd.glyph?_eq hlt' hkl (hlength ▸ hl),
      getElem_eq_mirror hscalars hφ hlt hlt']
    by_cases hnul : gs[k].base = '\x00'
    · simp [hnul, Glyph.mirror]
    · simp [hnul, Glyph.mirror]
  · have hle := Nat.le_of_not_lt hkl
    rw [hs.glyph?_of_le hk hle, hd.glyph?_of_le (hlength ▸ hk) hle]
    rfl

theorem Spells.mirrors (hB : ∀ p, B p ↔ ∃ k ≤ gs.length, p = unitsBefore gs k) :
    src.Mirrors dst φ B := by
  -- All offsets are ends of glyphs, and the glyphs of both sources have the same numbers.
  have hlength := length_eq_of_scalars hscalars
  refine ⟨?_, ?_, ?_, ?_, ?_, ?_⟩
  · intro p q hp hq
    obtain ⟨k, hk, rfl⟩ := (hB p).1 hp
    obtain ⟨l, hl, rfl⟩ := (hB q).1 hq
    rw [hφ k hk, hφ l hl, unitsBefore_lt_iff hs.width_pos hk hl,
      unitsBefore_lt_iff hd.width_pos (hlength ▸ hk) (hlength ▸ hl)]
  · intro p hp
    obtain ⟨k, hk, rfl⟩ := (hB p).1 hp
    have := unitsBefore_lt_iff hs.width_pos (Nat.le_refl _) hk
    rw [hs.size_eq, ← unitsBefore_length]
    omega
  · rw [hs.size_eq, ← unitsBefore_length]
    exact (hB _).2 ⟨gs.length, Nat.le_refl _, rfl⟩
  · rw [hs.size_eq, hd.size_eq, ← unitsBefore_length, ← unitsBefore_length,
      hφ _ (Nat.le_refl _), hlength]
  · intro p e g hp he hg
    obtain ⟨k, hk, rfl⟩ := (hB p).1 hp
    obtain ⟨l, hl, rfl⟩ := (hB e).1 he
    obtain ⟨hlt, hwidth⟩ := hs.width_of_glyph? hk hl hg
    rw [hwidth, ← unitsBefore_succ hlt]
    exact (hB _).2 ⟨k + 1, hlt, rfl⟩
  · intro p e hp he
    obtain ⟨k, hk, rfl⟩ := (hB p).1 hp
    obtain ⟨l, hl, rfl⟩ := (hB e).1 he
    rw [hφ k hk, hφ l hl]
    exact hs.glyph?_image hd hscalars hφ hk hl

end

end Source

end Recognition
