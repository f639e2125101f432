import Recognition.Proofs.Mirror.Spelling

namespace Recognition.Source

/-- In a text that ends at `e` the glyphs `gs` are read one after the other, the first at `pos`, and
`stop` is the offset after them. -/
inductive Walks (src : Source) (e : Nat) : (pos : Nat) → List Glyph → (stop : Nat) → Prop
  | nil {pos : Nat} (hpos : pos ≤ e) : Walks src e pos [] pos
  | cons {pos stop : Nat} {g : Glyph} {gs : List Glyph} (hg : src.glyph? pos e = some g)
    (hrest : Walks src e (pos + g.width) gs stop) : Walks src e pos (g :: gs) stop

variable {src : Source} {e pos stop : Nat} {g : Glyph} {gs : List Glyph}

theorem walk_of_none (h : src.glyph? pos e = none) : src.walk pos e = ([], pos) := by
  rw [walk]
  split <;> simp_all

theorem walk_of_some (h : src.glyph? pos e = some g) :
    src.walk pos e = (g :: (src.walk (pos + g.width) e).1, (src.walk (pos + g.width) e).2) := by
  rw [walk]
  split <;> simp_all

/-- A walk goes forwards, each glyph by a unit or more, and does not leave the text. -/
theorem Walks.bounds (h : src.Walks e pos gs stop) : pos + gs.length ≤ stop ∧ stop ≤ e := by
  induction h with
  | nil hpos => exact ⟨Nat.le_refl _, hpos⟩
  | cons hg hrest ih =>
    have := glyph?_bounds hg
    rw [List.length_cons]
    omega

theorem Walks.walk_eq (h : src.Walks e pos gs stop) (hstop : src.glyph? stop e = none) :
    src.walk pos e = (gs, stop) := by
  induction h with
  | nil => exact walk_of_none hstop
  | cons hg hrest ih => rw [walk_of_some hg, ih hstop]

theorem Spells.walks (h : src.Spells gs) (hnul : ∀ g ∈ gs, g.base ≠ '\x00') :
    src.Walks src.size 0 gs src.size := by
  have htail {k : Nat} (hk : k ≤ gs.length) :
      src.Walks src.size (Glyph.unitsBefore gs k) (gs.drop k) src.size := by
    induction hn : gs.length - k generalizing k with
    | zero =>
      obtain rfl : k = gs.length := by omega
      rw [List.drop_length, Glyph.unitsBefore_length, ← h.size_eq]
      exact .nil (Nat.le_refl _)
    | succ n ih =>
      have hlt : k < gs.length := by omega
      have hglyph := h.glyph?_eq hlt hlt (Nat.le_refl _)
      rw [Glyph.unitsBefore_length, ← h.size_eq, if_neg (hnul _ (List.getElem_mem hlt))] at hglyph
      rw [List.drop_eq_getElem_cons hlt]
      apply Walks.cons hglyph
      rw [← Glyph.unitsBefore_succ hlt]
      exact ih hlt (by omega)
  exact htail (Nat.zero_le _)

end Recognition.Source
