import Recognition.Proofs.Mirror.Offsets

namespace Recognition

/-- The glyph as it stands in another source, where its start and its end lie at their images. -/
def Glyph.mirror (φ : Nat → Nat) (pos : Nat) (g : Glyph) : Glyph :=
  { g with width := φ (pos + g.width) - φ pos }

@[simp] theorem Glyph.scalars_mirror (φ : Nat → Nat) (pos : Nat) (g : Glyph) :
    (g.mirror φ pos).scalars = g.scalars := rfl

@[simp] theorem Glyph.single?_mirror (φ : Nat → Nat) (pos : Nat) (g : Glyph) :
    (g.mirror φ pos).single? = g.single? := rfl

namespace Source

theorem glyph?_eq_none {src : Source} {p e : Nat} (h : e ≤ p) : src.glyph? p e = none := by
  cases hg : src.glyph? p e with
  | none => rfl
  | some g =>
    have := glyph?_bounds hg
    omega

/-- `src` read up to `e` holds what `dst` holds up to `f`: `B` holds of offsets between glyphs of
`src`, which lie in `dst` at their images, and both sources hold the same glyph there. -/
structure MirrorsUpTo (src : Source) (e : Nat) (dst : Source) (f : Nat) (φ : Nat → Nat)
    (B : Nat → Prop) : Prop where
  lt_iff : ∀ {p q}, B p → B q → (φ p < φ q ↔ p < q)
  le_iff : ∀ {p}, B p → (φ p ≤ f ↔ p ≤ e)
  boundary_next : ∀ {p g}, B p → src.glyph? p e = some g → B (p + g.width)
  glyph?_image : ∀ {p}, B p → dst.glyph? (φ p) f = (src.glyph? p e).map (Glyph.mirror φ p)

/-- Lines begin and end at the same offsets. -/
structure MirrorsLinesUpTo (src : Source) (e : Nat) (dst : Source) (f : Nat) (φ : Nat → Nat)
    (B : Nat → Prop) : Prop where
  lineStart : ∀ {p}, B p →
    (φ p == 0 || (dst.unit? (φ p - 1)).any isLineBreak) =
      (p == 0 || (src.unit? (p - 1)).any isLineBreak)
  lineEnd : ∀ {p}, B p →
    (dst.atEnd (φ p) f || (dst.unit? (φ p)).any isLineBreak) =
      (src.atEnd p e || (src.unit? p).any isLineBreak)

/-- `B` holds of offsets between glyphs of `src`, which lie in `dst` at their images, and between
the same offsets both sources hold the same glyph. -/
structure Mirrors (src dst : Source) (φ : Nat → Nat) (B : Nat → Prop) : Prop where
  lt_iff : ∀ {p q}, B p → B q → (φ p < φ q ↔ p < q)
  le_size : ∀ {p}, B p → p ≤ src.size
  boundary_size : B src.size
  image_size : φ src.size = dst.size
  boundary_next : ∀ {p e g}, B p → B e → src.glyph? p e = some g → B (p + g.width)
  glyph?_image : ∀ {p e}, B p → B e →
    dst.glyph? (φ p) (φ e) = (src.glyph? p e).map (Glyph.mirror φ p)

/-- The sources hold line breaks, and their ends, at the same offsets. -/
structure MirrorsLines (src dst : Source) (φ : Nat → Nat) (B : Nat → Prop) : Prop where
  lineStart : ∀ {p}, B p →
    (φ p == 0 || (dst.unit? (φ p - 1)).any isLineBreak) =
      (p == 0 || (src.unit? (p - 1)).any isLineBreak)
  lineEnd : ∀ {p e}, B p → B e →
    (dst.atEnd (φ p) (φ e) || (dst.unit? (φ p)).any isLineBreak) =
      (src.atEnd p e || (src.unit? p).any isLineBreak)

namespace MirrorsUpTo

variable {src dst : Source} {e f : Nat} {φ : Nat → Nat} {B : Nat → Prop}
  (h : src.MirrorsUpTo e dst f φ B)

include h

theorem le_iff_of_boundary {p q : Nat} (hp : B p) (hq : B q) : φ p ≤ φ q ↔ p ≤ q := by
  have := h.lt_iff hq hp
  omega

theorem eq_iff {p q : Nat} (hp : B p) (hq : B q) : φ p = φ q ↔ p = q := by
  have := h.lt_iff hp hq
  have := h.lt_iff hq hp
  omega

theorem image_add_width {p : Nat} {g : Glyph} (hp : B p) (hg : src.glyph? p e = some g) :
    φ p + (g.mirror φ p).width = φ (p + g.width) := by
  have hnext := h.boundary_next hp hg
  have hle := (h.le_iff_of_boundary hp hnext).2 (Nat.le_add_right p g.width)
  simp only [Glyph.mirror]
  omega

end MirrorsUpTo

namespace Mirrors

variable {src dst : Source} {φ : Nat → Nat} {B : Nat → Prop} (h : src.Mirrors dst φ B)

include h

theorem le_iff {p q : Nat} (hp : B p) (hq : B q) : φ p ≤ φ q ↔ p ≤ q := by
  have := h.lt_iff hq hp
  omega

theorem upTo {e : Nat} (he : B e) : src.MirrorsUpTo e dst (φ e) φ B where
  lt_iff := h.lt_iff
  le_iff hp := h.le_iff hp he
  boundary_next hp := h.boundary_next hp he
  glyph?_image hp := h.glyph?_image hp he

theorem image_le_size {p : Nat} (hp : B p) : φ p ≤ dst.size := by
  rw [← h.image_size, h.le_iff hp h.boundary_size]
  exact h.le_size hp

theorem boundary_limit {stop : Option Nat} (hstop : ∀ e ∈ stop, B e) : B (src.limit stop) := by
  cases stop with
  | none => exact h.boundary_size
  | some e =>
    have he : B e := hstop e rfl
    rwa [limit, Nat.min_eq_left (h.le_size he)]

theorem limit_image {stop : Option Nat} (hstop : ∀ e ∈ stop, B e) :
    dst.limit (stop.map φ) = φ (src.limit stop) := by
  cases stop with
  | none => exact h.image_size.symm
  | some e =>
    have he : B e := hstop e rfl
    rw [Option.map_some, limit, limit, Nat.min_eq_left (h.le_size he),
      Nat.min_eq_left (h.image_le_size he)]

end Mirrors

theorem MirrorsLines.upTo {src dst : Source} {φ : Nat → Nat} {B : Nat → Prop}
    (h : src.MirrorsLines dst φ B) {e : Nat} (he : B e) : src.MirrorsLinesUpTo e dst (φ e) φ B where
  lineStart := h.lineStart
  lineEnd hp := h.lineEnd hp he

end Source

namespace Recognizer

theorem searchFrom_eq {α : Type} (r : Recognizer α) (src : Source) (flags : Flags) (e pos : Nat) :
    r.searchFrom src flags e pos =
      if pos ≤ e then
        (r.recognize src pos (some e) flags).or
          ((src.glyph? pos e).bind fun g => r.searchFrom src flags e (pos + g.width))
      else none := by
  rw [searchFrom]
  by_cases hle : pos ≤ e
  · rw [if_pos hle, if_pos hle]
    cases r.recognize src pos (some e) flags with
    | some found => rfl
    | none =>
      simp only [Option.none_or]
      split <;> simp_all
  · rw [if_neg hle, if_neg hle]

variable {α : Type} [MapOffsets α]

/-- What is recognized in `dst` at the image of an offset is the image of what is in `src` there. -/
def Mirrors (r : Recognizer α) (src dst : Source) (φ : Nat → Nat) (start : Nat)
    (stop : Option Nat) (flags : Flags) : Prop :=
  r.recognize dst (φ start) (stop.map φ) flags =
    (r.recognize src start stop flags).map (mapOffsets φ)

/-- The same of what a search finds. -/
def MirrorsSearch (r : Recognizer α) (src dst : Source) (φ : Nat → Nat) (start : Nat)
    (stop : Option Nat) (flags : Flags) : Prop :=
  r.search dst (φ start) (stop.map φ) flags = (r.search src start stop flags).map (mapOffsets φ)

variable {r : Recognizer α} {src dst : Source} {φ : Nat → Nat} {B : Nat → Prop} {flags : Flags}

theorem searchFrom_image (h : src.Mirrors dst φ B) {e pos : Nat} (he : B e) (hpos : B pos)
    (hr : ∀ p, B p → r.Mirrors src dst φ p (some e) flags) :
    r.searchFrom dst flags (φ e) (φ pos) = (r.searchFrom src flags e pos).map (mapOffsets φ) := by
  -- The offsets of both searches grow in step, so the distance in `src` serves for both.
  induction hn : e - pos using Nat.strongRecOn generalizing pos with
  | ind n ih =>
    have hrec : r.recognize dst (φ pos) (some (φ e)) flags =
        (r.recognize src pos (some e) flags).map (mapOffsets φ) := hr pos hpos
    rw [searchFrom_eq, searchFrom_eq, hrec, h.glyph?_image hpos he]
    by_cases hle : pos ≤ e
    · rw [if_pos hle, if_pos ((h.le_iff hpos he).2 hle)]
      cases r.recognize src pos (some e) flags with
      | some found => rfl
      | none =>
        cases hg : src.glyph? pos e with
        | none => rfl
        | some g =>
          have hbounds := Source.glyph?_bounds hg
          simp only [Option.map_some, Option.map_none, Option.none_or, Option.bind_some]
          rw [(h.upTo he).image_add_width hpos hg]
          exact ih _ (by omega) (h.boundary_next hpos he hg) rfl
    · rw [if_neg hle, if_neg (by rwa [h.le_iff hpos he])]
      rfl

theorem mirrorsSearch (h : src.Mirrors dst φ B) {start : Nat} {stop : Option Nat} (hstart : B start)
    (hstop : ∀ e ∈ stop, B e)
    (hr : ∀ p, B p → r.Mirrors src dst φ p (some (src.limit stop)) flags) :
    r.MirrorsSearch src dst φ start stop flags := by
  rw [MirrorsSearch, search, search, h.limit_image hstop]
  exact searchFrom_image h (h.boundary_limit hstop) hstart hr

end Recognizer

end Recognition
