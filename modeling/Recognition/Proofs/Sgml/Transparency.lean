import Recognition.Proofs.Encoding.Independence
import Recognition.Proofs.Sgml.Decoding
import Recognition.Proofs.Sgml.Entities

namespace Recognition

namespace Source

/-- The offsets that a walk over the glyphs comes to. -/
inductive Boundary (src : Source) : Nat → Prop
  | zero : Boundary src 0
  | step {p : Nat} {g : Glyph} (hp : Boundary src p) (hg : src.glyph? p src.size = some g) :
    Boundary src (p + g.width)

theorem Spells.exists_of_boundary {src : Source} {gs : List Glyph} (h : src.Spells gs) {p : Nat}
    (hp : src.Boundary p) : ∃ k ≤ gs.length, p = Glyph.unitsBefore gs k := by
  induction hp with
  | zero => exact ⟨0, Nat.zero_le _, Glyph.unitsBefore_zero.symm⟩
  | step _ hg ih =>
    obtain ⟨k, hk, rfl⟩ := ih
    rw [h.size_eq, ← Glyph.unitsBefore_length] at hg
    obtain ⟨hlt, hwidth⟩ := h.width_of_glyph? hk (Nat.le_refl _) hg
    exact ⟨k + 1, hlt, by rw [hwidth, Glyph.unitsBefore_succ hlt]⟩

end Source

namespace Sgml

/-- Where in the decoded text byte `p` of the text is. -/
def decodedOffset (text : List Char) (p : Nat) : Nat :=
  Utf8.size (decode .none (Utf8.before text p))

theorem ne_nul_of_numbered? {body : List Char} {c : Char} (h : numbered? body = some c) :
    c ≠ '\x00' := by
  have ofScalar {number : Option Nat} (h : number.bind scalar? = some c) : c ≠ '\x00' := by
    obtain ⟨n, _, hn⟩ := Option.bind_eq_some_iff.1 h
    exact (scalar?_eq_some_iff.1 hn).1
  unfold numbered? at h
  split at h
  · exact ofScalar h
  · exact ofScalar h
  · exact ofScalar h

theorem nul_notMem_of_meaning? {body scalars : List Char} (h : meaning? body = some scalars) :
    '\x00' ∉ scalars := by
  unfold meaning? at h
  split at h
  · obtain ⟨c, hc, rfl⟩ := Option.map_eq_some_iff.1 h
    simpa using (ne_nul_of_numbered? hc).symm
  · exact nul_notMem_of_scalarsOf? h

theorem le_of_mem_tail_of_meaning? {body scalars : List Char} (h : meaning? body = some scalars) :
    ∀ m ∈ scalars.tail, 0x300 ≤ m.toNat := by
  unfold meaning? at h
  split at h
  · obtain ⟨c, _, rfl⟩ := Option.map_eq_some_iff.1 h
    simp
  · exact le_of_mem_tail (mem_of_scalarsOf? h)

theorem exists_meaning_of_reference? {cs rest : List Char} {g : Glyph}
    (h : reference? cs = some (g, rest)) : ∃ body, meaning? body = some g.scalars := by
  simp only [reference?, Option.bind_eq_bind, Option.bind_eq_some_iff, Option.pure_def] at h
  obtain ⟨⟨body, _⟩, _, scalars, hmeaning, g', hg, hr⟩ := h
  obtain ⟨rfl, _⟩ := Prod.mk.inj (Option.some.inj hr)
  rw [← (Glyph.ofScalars?_eq_some_iff.1 hg).1] at hmeaning
  exact ⟨body, hmeaning⟩

theorem base_ne_nul {cs rest : List Char} {g : Glyph} (h : reference? cs = some (g, rest)) :
    g.base ≠ '\x00' := by
  obtain ⟨body, hmeaning⟩ := exists_meaning_of_reference? h
  intro hnul
  apply nul_notMem_of_meaning? hmeaning
  rw [Glyph.scalars, hnul]
  exact List.mem_cons_self

theorem base_ne_nul_of_unkept? {cs rest : List Char} {g : Glyph}
    (h : unkept? .none cs = some (g, rest)) : g.base ≠ '\x00' := by
  obtain ⟨body, rfl, -⟩ := exists_body_of_unkept? h
  rw [unkept?_none] at h
  exact base_ne_nul h

theorem glyph?_append {as bs : List Char} {g : Glyph} {gs : List Glyph} {e : Nat}
    (hbs : glyphs .none bs = g :: gs) (he : Utf8.size as + g.width ≤ e) :
    (Source.sgml (as ++ bs)).glyph? (Utf8.size as) e =
      if g.base = '\x00' then none else some g := by
  rw [Source.glyph?, reference?_eq_unkept?]
  rcases exists_of_glyphs_eq_cons hbs with ⟨rest, hfront⟩ | ⟨c, cs, rfl, hfront, rfl⟩
  · rw [hfront, if_neg (base_ne_nul_of_unkept? hfront)]
    simp [he]
  · -- An `&` that no reference begins with is a character like any other.
    rw [hfront, Utf8.glyph?_append as cs he]
    rfl

theorem extent_glyphs (text : List Char) : Glyph.extent (glyphs .none text) = Utf8.size text := by
  induction text using unkept_induction .none with
  | nil => rw [glyphs_nil, Glyph.extent, Utf8.size_nil]
  | reference hfront ih =>
    obtain ⟨body, rfl, _⟩ := exists_body_of_unkept? hfront
    rw [glyphs_of_unkept? hfront, Glyph.extent, ih]
    rw [unkept?_none] at hfront
    exact (size_of_reference? hfront).symm
  | plain hfront ih =>
    rw [glyphs_cons hfront, Glyph.extent, ih, Utf8.size_cons]
    rfl

theorem unitsBefore_eq_size {text as : List Char} {k : Nat}
    (has : glyphs .none as = (glyphs .none text).take k) :
    Glyph.unitsBefore (glyphs .none text) k = Utf8.size as := by
  rw [Glyph.unitsBefore, ← has, extent_glyphs]

theorem spells (text : List Char) : (Source.sgml text).Spells (glyphs .none text) where
  width_pos := width_pos_of_mem_glyphs
  size_eq := (extent_glyphs text).symm
  glyph?_eq := by
    intro k e hk hke he
    obtain ⟨as, bs, htext, has, hbs⟩ := exists_append_of_le text (Nat.le_of_lt hk)
    rw [List.drop_eq_getElem_cons hk] at hbs
    have hnext : Glyph.unitsBefore (glyphs .none text) (k + 1) ≤
        Glyph.unitsBefore (glyphs .none text) e := by
      have := Glyph.unitsBefore_lt_iff (l := k + 1) width_pos_of_mem_glyphs he hk
      omega
    rw [Glyph.unitsBefore_succ hk, unitsBefore_eq_size has] at hnext
    have hglyph := glyph?_append hbs hnext
    rwa [← htext, ← unitsBefore_eq_size has] at hglyph

section

variable {text : List Char} (hsingle : ∀ g ∈ glyphs .none text, g.mark = none)

include hsingle

theorem decode_eq_map : decode .none text = (glyphs .none text).map Glyph.base := by
  rw [decode_eq, List.map_eq_flatMap]
  apply List.flatMap_congr
  intro g hg
  simp [Glyph.scalars, hsingle g hg]

theorem scalars_glyphs :
    (glyphs .none text).map Glyph.scalars = (decode .none text).map ([·]) := by
  rw [decode_eq_map hsingle, List.map_map]
  apply List.map_congr_left
  intro g hg
  simp [Glyph.scalars, hsingle g hg]

theorem decodedOffset_unitsBefore {k : Nat} (hk : k ≤ (glyphs .none text).length) :
    decodedOffset text (Glyph.unitsBefore (glyphs .none text) k) =
      Glyph.unitsBefore (Encoding.utf8.glyphs (decode .none text)) k := by
  obtain ⟨as, bs, htext, has, hbs⟩ := exists_append_of_le text hk
  have hbefore : Utf8.before text (Utf8.size as) = as := by
    rw [htext, Utf8.before_append]
  have hdecode : decode .none as = (decode .none text).take k := by
    rw [decode_eq_map hsingle, ← List.map_take, ← has, decode_eq_map]
    intro g hg
    rw [has] at hg
    exact hsingle g (List.mem_of_mem_take hg)
  rw [unitsBefore_eq_size has, decodedOffset, hbefore, hdecode, ← Encoding.offset_eq]
  rfl

theorem mirrors :
    (Source.sgml text).Mirrors (.utf8 (decode .none text)) (decodedOffset text)
      (fun p => ∃ k ≤ (glyphs .none text).length, p = Glyph.unitsBefore (glyphs .none text) k) := by
  have hutf8 : (Encoding.utf8.source (decode .none text)).Spells _ :=
    Encoding.spells fun _ _ => trivial
  apply (spells text).mirrors hutf8
  · rw [scalars_glyphs hsingle, Encoding.scalars_glyphs]
  · intro k hk
    exact decodedOffset_unitsBefore hsingle hk
  · intro p
    rfl

end

theorem mark_eq_none_of_mem_glyphs {text : List Char}
    (hsingle : ∀ span g, Segment.reference span g ∈ segments .none text → g.mark = none) :
    ∀ g ∈ glyphs .none text, g.mark = none := by
  intro g hg
  rcases mem_glyphs hg with ⟨c, rfl⟩ | ⟨span, hspan⟩
  · rfl
  · exact hsingle span g hspan

/-- No reference in a text of Latin-1 stands for a character with a mark. -/
theorem mark_eq_none_of_latin {text : List Char} (h : ∀ c ∈ decode .none text, c.toNat ≤ 0xFF) :
    ∀ g ∈ glyphs .none text, g.mark = none := by
  intro g hg
  rcases mem_glyphs hg with ⟨c, rfl⟩ | ⟨span, hspan⟩
  · rfl
  · obtain ⟨cs, rest, href⟩ := exists_of_reference_mem hspan
    obtain ⟨body, hmeaning⟩ := exists_meaning_of_reference? href
    cases hm : g.mark with
    | none => rfl
    | some m =>
      have hscalars : g.scalars = [g.base, m] := by simp [Glyph.scalars, hm]
      have hhigh := le_of_mem_tail_of_meaning? hmeaning m (by simp [hscalars])
      have hmem : m ∈ decode .none text := by
        rw [decode_eq]
        exact List.mem_flatMap.2 ⟨g, hg, by simp [hscalars]⟩
      have := h m hmem
      omega

/-- Where no reference stands for a character with a mark, what is recognized in a text from a
boundary on is recognized in the decoded text. -/
theorem recognized_decoded {text : List Char}
    (hsingle : ∀ span g, Segment.reference span g ∈ segments .none text → g.mark = none) {p : Nat}
    (hp : (Source.sgml text).Boundary p) {stop : Option Nat}
    (hstop : ∀ e ∈ stop, (Source.sgml text).Boundary e) (flags : Flags) :
    (∀ (g : Grammar) (id : Nat), g.AnchorFree id →
      (g.rule id).Mirrors (.sgml text) (.utf8 (decode .none text)) (decodedOffset text) p stop
        flags) ∧
      (Payment.Iban.recognizer .space).Mirrors (.sgml text) (.utf8 (decode .none text))
        (decodedOffset text) p stop flags ∧
      (Payment.CreditorReference.recognizer .space).Mirrors (.sgml text)
        (.utf8 (decode .none text)) (decodedOffset text) p stop flags ∧
      (Payment.SiReference.recognizer .space).Mirrors (.sgml text) (.utf8 (decode .none text))
        (decodedOffset text) p stop flags := by
  have hmirrors := mirrors (mark_eq_none_of_mem_glyphs hsingle)
  have hstart := (spells text).exists_of_boundary hp
  have hend := fun e he => (spells text).exists_of_boundary (hstop e he)
  have hspace := Payment.Separator.mirrors_space hmirrors flags
  refine ⟨?_, ?_, ?_, ?_⟩
  · intro g id hfree
    exact g.mirrors_rule hmirrors hstart hend (.inl hfree)
  · exact Payment.Iban.mirrorsRead.mirrors_recognizer hmirrors hspace hstart hend
  · exact Payment.CreditorReference.mirrorsRead.mirrors_recognizer hmirrors hspace hstart hend
  · exact Payment.SiReference.mirrorsRead.mirrors_recognizer hmirrors hspace hstart hend

/-- A reference of five bytes is one character, as a letter is. -/
theorem recognized_decoded_past_amp :
    (∀ span g, Segment.reference span g ∈ segments .none ['a', '&', 'a', 'm', 'p', ';', 'b'] →
        g.mark = none) ∧
      (Source.sgml ['a', '&', 'a', 'm', 'p', ';', 'b']).Boundary 1 ∧
      Grammar.AnchorFree ⟨.ascii, #[.any, .sequence [0, 0]]⟩ 1 ∧
      Grammar.match? ⟨.ascii, #[.any, .sequence [0, 0]]⟩ 1 (.utf8 ['a', '&', 'b']) 1 none .none =
        some ⟨⟨1, 3⟩, none, [.leaf 1 2, .leaf 2 3]⟩ := by
  have hsegments : segments .none ['a', '&', 'a', 'm', 'p', ';', 'b'] =
      [.text ['a'], .reference ⟨1, 6⟩ ⟨'&', none, 5⟩, .text ['b']] := by decide +kernel
  have hsingle : ∀ span g,
      Segment.reference span g ∈ segments .none ['a', '&', 'a', 'm', 'p', ';', 'b'] →
        g.mark = none := by
    intro span g hg
    rw [hsegments] at hg
    simp at hg
    rw [hg.2]
  have hboundary : (Source.sgml ['a', '&', 'a', 'm', 'p', ';', 'b']).Boundary 1 :=
    .step (g := ⟨'a', none, 1⟩) .zero (by decide +kernel)
  have hfree : Grammar.AnchorFree ⟨.ascii, #[.any, .sequence [0, 0]]⟩ 1 := by
    intro r node _ hnode
    have hmem := Array.mem_of_getElem? hnode
    simp at hmem
    rcases hmem with rfl | rfl <;> rfl
  have hstop : ∀ e ∈ (none : Option Nat),
      (Source.sgml ['a', '&', 'a', 'm', 'p', ';', 'b']).Boundary e := by simp
  have hmirrors := (recognized_decoded hsingle hboundary hstop .none).1 _ _ hfree
  have hmatch : Grammar.match? ⟨.ascii, #[.any, .sequence [0, 0]]⟩ 1
      (.sgml ['a', '&', 'a', 'm', 'p', ';', 'b']) 1 none .none =
      some ⟨⟨1, 7⟩, none, [.leaf 1 6, .leaf 6 7]⟩ := by decide +kernel
  have hdecode : decode .none ['a', '&', 'a', 'm', 'p', ';', 'b'] = ['a', '&', 'b'] := by
    decide +kernel
  have hone : decodedOffset ['a', '&', 'a', 'm', 'p', ';', 'b'] 1 = 1 := by decide +kernel
  have hsix : decodedOffset ['a', '&', 'a', 'm', 'p', ';', 'b'] 6 = 2 := by decide +kernel
  have hseven : decodedOffset ['a', '&', 'a', 'm', 'p', ';', 'b'] 7 = 3 := by decide +kernel
  refine ⟨hsingle, hboundary, hfree, ?_⟩
  simpa [Recognizer.Mirrors, Grammar.rule, hmatch, hdecode, hone, hsix, hseven, mapOffsets,
    Match.mapOffsets_mk, Span.mapOffsets] using hmirrors

end Sgml

end Recognition
