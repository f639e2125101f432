import Recognition.Proofs.Sgml.Transparency
import Recognition.Proofs.Walk

namespace Recognition

/-- Each glyph with the range that it takes, the first from `pos` on. -/
def Glyph.placed (pos : Nat) : List Glyph → List (Span × Glyph)
  | [] => []
  | g :: gs => (⟨pos, pos + g.width⟩, g) :: placed (pos + g.width) gs

/-- The characters in a range of bytes. -/
def Utf8.slice (text : List Char) (s : Span) : List Char :=
  (before text s.stop).drop (before text s.start).length

theorem Utf8.slice_append (as bs cs : List Char) :
    slice (as ++ (bs ++ cs)) ⟨size as, size as + size bs⟩ = bs := by
  unfold slice
  rw [before_append, before_append_add, before_append, List.drop_left]

namespace Sgml

def Segment.reference? : Segment → Option (Span × Glyph)
  | text _ => none
  | reference span glyph => some (span, glyph)

theorem filterMap_reference?_cons {keep : EscapeSet} {c : Char} {cs : List Char}
    (h : unkept? keep (c :: cs) = none) (pos : Nat) :
    (segmentsFrom keep pos (c :: cs)).filterMap Segment.reference? =
      (segmentsFrom keep (pos + c.utf8Size) cs).filterMap Segment.reference? := by
  rcases segmentsFrom_plain h pos with hown | ⟨run, rest, hrun, hmore⟩
  · rw [hown]
    rfl
  · rw [hrun, hmore]
    rfl

theorem base_ne_nul_of_mem_glyphs {text : List Char} (hnul : '\x00' ∉ text) :
    ∀ g ∈ glyphs .none text, g.base ≠ '\x00' := by
  induction text using unkept_induction .none with
  | nil => simp
  | reference hfront ih =>
    obtain ⟨tail, rfl, -⟩ := exists_tail_of_unkept? hfront
    rw [List.mem_append, not_or] at hnul
    rw [glyphs_of_unkept? hfront, List.forall_mem_cons]
    exact ⟨base_ne_nul_of_unkept? hfront, ih hnul.2⟩
  | plain hfront ih =>
    rw [List.mem_cons, not_or] at hnul
    rw [glyphs_cons hfront, List.forall_mem_cons]
    exact ⟨Ne.symm hnul.1, ih hnul.2⟩

theorem walks_glyphs {text : List Char} (hnul : '\x00' ∉ text) :
    (Source.sgml text).Walks (Utf8.size text) 0 (glyphs .none text) (Utf8.size text) :=
  (spells text).walks (base_ne_nul_of_mem_glyphs hnul)

theorem walk_eq_glyphs {text : List Char} (hnul : '\x00' ∉ text) :
    (Source.sgml text).walk 0 (Utf8.size text) = (glyphs .none text, Utf8.size text) :=
  (walks_glyphs hnul).walk_eq (Source.glyph?_eq_none (Nat.le_refl _))

/-- The glyphs that are written with several characters are the references. -/
theorem filter_placed_glyphs (as cs : List Char) :
    ((Glyph.placed (Utf8.size as) (glyphs .none cs)).filter fun p =>
        1 < (Utf8.slice (as ++ cs) p.1).length) =
      (segmentsFrom .none (Utf8.size as) cs).filterMap Segment.reference? := by
  induction cs using unkept_induction .none generalizing as with
  | nil =>
    rw [glyphs_nil, segmentsFrom_nil]
    rfl
  | @reference cs rest g hfront ih =>
    obtain ⟨body, rfl, hbody⟩ := exists_body_of_unkept? hfront
    have hwidth : g.width = Utf8.size ('&' :: (body ++ [';'])) := (size_of_unkept? (hbody [])).symm
    have htext : '&' :: (body ++ ';' :: rest) = '&' :: (body ++ [';']) ++ rest := by simp
    have hslice : Utf8.slice (as ++ ('&' :: (body ++ ';' :: rest)))
        ⟨Utf8.size as, Utf8.size as + g.width⟩ = '&' :: (body ++ [';']) := by
      rw [hwidth, htext, Utf8.slice_append]
    have hlong : 1 < ('&' :: (body ++ [';'])).length := by simp
    have hrest := ih (as ++ '&' :: (body ++ [';']))
    rw [List.append_assoc, ← htext, Utf8.size_append, ← hwidth] at hrest
    rw [glyphs_of_unkept? hfront, segmentsFrom_of_unkept? hfront, Glyph.placed,
      List.filter_cons_of_pos (by simpa only [hslice, decide_eq_true_eq] using hlong), hrest]
    rfl
  | @plain c cs hfront ih =>
    have hslice : Utf8.slice (as ++ c :: cs) ⟨Utf8.size as, Utf8.size as + (plain c).width⟩ = [c] :=
      Utf8.slice_append as [c] cs
    have hrest := ih (as ++ [c])
    rw [List.append_assoc, Utf8.size_append] at hrest
    rw [glyphs_cons hfront, filterMap_reference?_cons hfront, Glyph.placed,
      List.filter_cons_of_neg (by simp [hslice])]
    exact hrest

/-- Walked from its start, a text without NUL is read to its end. Its glyphs stand for what the text
decodes to, and those that are written with several characters are the references it is cut into. -/
theorem walk_decodes {text : List Char} (hnul : '\x00' ∉ text) :
    let walk := (Source.sgml text).walk 0 ((Source.sgml text).limit none)
    walk.2 = (Source.sgml text).size ∧ walk.1.flatMap Glyph.scalars = decode .none text ∧
      ((Glyph.placed 0 walk.1).filter fun p => 1 < (Utf8.slice text p.1).length) =
        (segments .none text).filterMap Segment.reference? := by
  intro walk
  have hwalk : walk = (glyphs .none text, Utf8.size text) := walk_eq_glyphs hnul
  rw [hwalk]
  exact ⟨rfl, (decode_eq text).symm, filter_placed_glyphs [] text⟩

/-- Of the two `&` only the second begins a reference, and that stands for two scalars. -/
theorem walk_decodes_nested :
    let text := ['&', 'x', '&', 's', 'm', 'a', 'c', 'r', ';']
    '\x00' ∉ text ∧
      ((Glyph.placed 0 ((Source.sgml text).walk 0 9).1).filter fun p =>
          1 < (Utf8.slice text p.1).length) = [(⟨2, 9⟩, ⟨'s', some '\u0304', 7⟩)] := by
  intro text
  have hnul : '\x00' ∉ text := by decide
  refine ⟨hnul, ?_⟩
  have hreferences := (walk_decodes hnul).2.2
  have hsegments : segments .none text =
      [.text ['&', 'x'], .reference ⟨2, 9⟩ ⟨'s', some '\u0304', 7⟩] := by decide +kernel
  rw [hsegments] at hreferences
  exact hreferences

end Sgml

end Recognition
