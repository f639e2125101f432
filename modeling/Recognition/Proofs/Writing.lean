import Recognition.Proofs.Sgml.Transparency

namespace Recognition.Source

/-- The source is a way to write the text, in which character `k` begins at unit `φ k`. -/
inductive Writes (text : List Char) : Source → (Nat → Nat) → Prop
  | encoded (enc : Encoding) : Writes text (enc.source text) (enc.offset text)
  /-- With references, each of which is a glyph as the other characters are. -/
  | spelled {cs : List Char} (h : Sgml.decode .none cs = text) :
    Writes text (.sgml cs) (Glyph.unitsBefore (Sgml.glyphs .none cs))

namespace Writes

variable {text : List Char} {src : Source} {φ : Nat → Nat} (h : Writes text src φ)
  (hlatin : ∀ c ∈ text, c.toNat ≤ 0xFF)

include h hlatin

theorem mirrors : (Source.scalars text).Mirrors src φ (· ≤ text.length) := by
  cases h with
  | encoded enc =>
    apply Encoding.mirrors
    intro c hc
    cases enc with
    | latin1 => exact hlatin c hc
    | _ => trivial
  | spelled hdecode =>
    obtain rfl := hdecode
    exact Encoding.mirrors_of_spells (Sgml.spells _)
      (Sgml.scalars_glyphs (Sgml.mark_eq_none_of_latin hlatin))

omit hlatin in
theorem offset_zero : φ 0 = 0 := by
  cases h with
  | encoded enc => exact enc.offset_zero text
  | spelled => exact Glyph.unitsBefore_zero

theorem offset_length : φ text.length = src.size := (h.mirrors hlatin).image_size

theorem recognize_eq {α : Type} [MapOffsets α] {r : Recognizer α} {flags : Flags}
    (hr : ∀ {B : Nat → Prop}, (Source.scalars text).Mirrors src φ B → B 0 →
      r.Mirrors (.scalars text) src φ 0 none flags) :
    r.recognize src 0 none flags =
      (r.recognize (.scalars text) 0 none flags).map (mapOffsets φ) := by
  have hmirrors := hr (h.mirrors hlatin) (Nat.zero_le _)
  rwa [Recognizer.Mirrors, h.offset_zero] at hmirrors

end Writes

end Recognition.Source
