import Recognition.Proofs.Sgml.Chunks
import Recognition.Proofs.Sgml.Transparency

namespace Recognition

namespace Utf8

theorem append_inj_of_size {as bs as' bs' : List Char} (h : as ++ bs = as' ++ bs')
    (hsize : size as = size as') : as = as' ∧ bs = bs' := by
  have has : as = as' := by rw [← before_append as bs, h, hsize, before_append]
  subst has
  exact ⟨rfl, List.append_cancel_left h⟩

theorem exists_unit?_append (as bs : List Char) (x : Char) {i : Nat} (hi : i < x.utf8Size) :
    ∃ u, (Source.utf8 (as ++ x :: bs)).unit? (size as + i) = some u ∧
      (u = x.toNat ∨ 0x80 ≤ u ∧ 0x80 ≤ x.toNat) := by
  have hfits : Encoding.utf8.Fits (as ++ x :: bs) := fun _ _ => trivial
  have hlt : as.length < (as ++ x :: bs).length := by simp
  have hx : (as ++ x :: bs)[as.length] = x := by simp
  have hunits : i < (Encoding.utf8.units (as ++ x :: bs)[as.length]).length := by
    simpa [hx, Encoding.units] using hi
  have hoffset : Encoding.utf8.offset (as ++ x :: bs) as.length = size as := by
    simp [Encoding.offset, Encoding.source, Source.size]
  have hunit := Encoding.exists_unit?_offset_add hfits hlt hunits
  rwa [hoffset, hx] at hunit

end Utf8

namespace Matching

variable {c : Classifier} {flags : Flags} {e : Nat}

theorem atLineStart_append (as bs : List Char) (x : Char) :
    atLineStart ⟨c, .utf8 (as ++ x :: bs), flags, e⟩ (Utf8.size (as ++ [x])) =
      isLineBreak x.toNat := by
  have hpos := x.utf8Size_pos
  have hsize : Utf8.size (as ++ [x]) = Utf8.size as + x.utf8Size := by simp
  have hne : Utf8.size (as ++ [x]) ≠ 0 := by omega
  -- The unit before the place is the last of the character.
  obtain ⟨u, hu, hunit⟩ := Utf8.exists_unit?_append as bs x (Nat.sub_lt hpos Nat.one_pos)
  rw [← Nat.add_sub_assoc hpos, ← hsize] at hu
  rw [atLineStart, beq_eq_false_iff_ne.2 hne, hu, Bool.false_or, Option.any_some]
  rcases hunit with rfl | ⟨hhigh, hhigh'⟩
  · rfl
  · rw [Encoding.isLineBreak_of_high hhigh, Encoding.isLineBreak_of_high hhigh']

theorem atLineEnd_append (as bs : List Char) (x : Char) :
    atLineEnd ⟨c, .utf8 (as ++ x :: bs), flags, Utf8.size (as ++ x :: bs)⟩ (Utf8.size as) =
      (x.toNat == 0 || isLineBreak x.toNat) := by
  have hpos := x.utf8Size_pos
  have hlt : ¬ Utf8.size (as ++ x :: bs) ≤ Utf8.size as := by
    rw [Utf8.size_append, Utf8.size_cons]
    omega
  obtain ⟨u, hu, hunit⟩ := Utf8.exists_unit?_append as bs x hpos
  rw [Nat.add_zero] at hu
  simp only [atLineEnd, Source.atEnd, hu, decide_eq_false hlt, Bool.false_or, Option.all_some,
    Option.any_some]
  rcases hunit with rfl | ⟨hhigh, hhigh'⟩
  · rfl
  · have hu0 : u ≠ 0 := by omega
    have hx0 : x.toNat ≠ 0 := by omega
    rw [Encoding.isLineBreak_of_high hhigh, Encoding.isLineBreak_of_high hhigh']
    simp [hu0, hx0]

theorem place_image_iff {φ : Nat → Nat} {invert : Bool} {test test' : Nat → Bool} {p : Nat} :
    place invert test' (φ p) = (place invert test p).map (Match.mapOffsets φ) ↔
      test' (φ p) = test p := by
  simp only [place]
  cases invert <;> cases test p <;> cases test' (φ p) <;> simp

end Matching

namespace Sgml

open Glyph (unitsBefore unitsBefore_cons unitsBefore_succ unitsBefore_inj)

/-- A reference to a line break begins at byte `p`. -/
def BreakBegins (text : List Char) (p : Nat) : Prop :=
  ∃ span g, .reference span g ∈ segments .none text ∧ isLineBreak g.base.toNat = true ∧
    span.start = p

/-- A reference to a line break ends before byte `p`. -/
def BreakEnds (text : List Char) (p : Nat) : Prop :=
  ∃ span g, .reference span g ∈ segments .none text ∧ isLineBreak g.base.toNat = true ∧
    span.stop = p

section References

variable {keep : EscapeSet}

theorem reference_mem_append_iff {as bs : List Char} {span : Span} {g : Glyph} :
    .reference span g ∈ segments keep (as ++ bs) ∧ span.start = Utf8.size as ↔
      (∃ rest, unkept? keep bs = some (g, rest)) ∧
        span = ⟨Utf8.size as, Utf8.size as + g.width⟩ := by
  rw [segments, reference_mem_iff]
  simp only [Nat.zero_add]
  constructor
  · rintro ⟨⟨as', cs, rest, htext, hcs, rfl⟩, hstart⟩
    obtain ⟨rfl, rfl⟩ := Utf8.append_inj_of_size htext hstart.symm
    exact ⟨⟨rest, hcs⟩, rfl⟩
  · rintro ⟨⟨rest, hbs⟩, rfl⟩
    exact ⟨⟨as, bs, rest, rfl, hbs, rfl⟩, rfl⟩

theorem exists_index_of_reference {pos : Nat} {text : List Char} {span : Span} {g : Glyph}
    (h : .reference span g ∈ segmentsFrom keep pos text) :
    ∃ k < (glyphs keep text).length, span.start = pos + unitsBefore (glyphs keep text) k ∧
      span.stop = pos + unitsBefore (glyphs keep text) (k + 1) := by
  induction text using unkept_induction keep generalizing pos with
  | nil => simp [segmentsFrom_nil] at h
  | @reference cs rest g' hfront ih =>
    rw [segmentsFrom_of_unkept? hfront, List.mem_cons, Segment.reference.injEq] at h
    rw [glyphs_of_unkept? hfront]
    rcases h with ⟨rfl, rfl⟩ | h
    · exact ⟨0, Nat.succ_pos _, rfl, rfl⟩
    · obtain ⟨k, hk, hstart, hstop⟩ := ih h
      rw [Nat.add_assoc, ← unitsBefore_cons] at hstart hstop
      exact ⟨k + 1, Nat.succ_lt_succ hk, hstart, hstop⟩
  | @plain c cs hfront ih =>
    obtain ⟨k, hk, hstart, hstop⟩ := ih ((reference_mem_cons hfront pos).1 h)
    rw [glyphs_cons hfront]
    have hwidth : c.utf8Size = (Sgml.plain c).width := rfl
    rw [hwidth, Nat.add_assoc, ← unitsBefore_cons] at hstart hstop
    exact ⟨k + 1, Nat.succ_lt_succ hk, hstart, hstop⟩

theorem breakBegins_iff (as : List Char) {bs : List Char} {g : Glyph} {gs : List Glyph}
    (h : glyphs .none bs = g :: gs) :
    BreakBegins (as ++ bs) (Utf8.size as) ↔
      (unkept? .none bs).isSome = true ∧ isLineBreak g.base.toNat = true := by
  constructor
  · rintro ⟨span, g', hmem, hbreak, hstart⟩
    obtain ⟨⟨rest, hbs⟩, -⟩ := reference_mem_append_iff.1 ⟨hmem, hstart⟩
    rw [glyphs_of_unkept? hbs] at h
    obtain ⟨rfl, -⟩ := List.cons.inj h
    exact ⟨by rw [hbs]; rfl, hbreak⟩
  · rintro ⟨hsome, hbreak⟩
    obtain ⟨⟨g', rest⟩, hbs⟩ := Option.isSome_iff_exists.1 hsome
    obtain ⟨hmem, hstart⟩ := reference_mem_append_iff.2 ⟨⟨rest, hbs⟩, rfl⟩
    rw [glyphs_of_unkept? hbs] at h
    obtain ⟨rfl, -⟩ := List.cons.inj h
    exact ⟨_, g', hmem, hbreak, hstart⟩

variable {text : List Char}

theorem not_breakEnds_zero : ¬ BreakEnds text 0 := by
  rintro ⟨span, g, hmem, -, hstop⟩
  obtain ⟨k, hk, -, hk'⟩ := exists_index_of_reference hmem
  have hlt := Glyph.unitsBefore_lt width_pos_of_mem_glyphs k.succ_pos (l := k + 1) hk
  rw [Glyph.unitsBefore_zero] at hlt
  omega

theorem stop_eq_iff_start_eq {span : Span} {g : Glyph}
    (h : .reference span g ∈ segments .none text) {k : Nat}
    (hk : k < (glyphs .none text).length) :
    span.stop = unitsBefore (glyphs .none text) (k + 1) ↔
      span.start = unitsBefore (glyphs .none text) k := by
  obtain ⟨i, hi, hstart, hstop⟩ := exists_index_of_reference h
  rw [hstart, hstop, Nat.zero_add, Nat.zero_add, unitsBefore_inj width_pos_of_mem_glyphs hi hk,
    unitsBefore_inj width_pos_of_mem_glyphs (Nat.le_of_lt hi) (Nat.le_of_lt hk),
    Nat.succ_inj]

theorem breakEnds_succ_iff {k : Nat} (hk : k < (glyphs .none text).length) :
    BreakEnds text (unitsBefore (glyphs .none text) (k + 1)) ↔
      BreakBegins text (unitsBefore (glyphs .none text) k) := by
  constructor
  · rintro ⟨span, g, hmem, hbreak, hstop⟩
    exact ⟨span, g, hmem, hbreak, (stop_eq_iff_start_eq hmem hk).1 hstop⟩
  · rintro ⟨span, g, hmem, hbreak, hstart⟩
    exact ⟨span, g, hmem, hbreak, (stop_eq_iff_start_eq hmem hk).2 hstart⟩

section Places

variable {c : Classifier} {flags : Flags} {e e' k : Nat}

theorem decode_append_of_glyphs {as bs : List Char}
    (has : glyphs .none as = (glyphs .none (as ++ bs)).take k)
    (hbs : glyphs .none bs = (glyphs .none (as ++ bs)).drop k) :
    decode .none (as ++ bs) = decode .none as ++ decode .none bs := by
  rw [decode_eq, decode_eq, decode_eq, has, hbs, ← List.flatMap_append, List.take_append_drop]

theorem decodedOffset_append (as bs : List Char) :
    decodedOffset (as ++ bs) (Utf8.size as) = Utf8.size (decode .none as) := by
  rw [decodedOffset, Utf8.before_append]

theorem atLineStart_glyph {as bs : List Char} {g : Glyph} {gs : List Glyph}
    (h : glyphs .none bs = g :: gs) :
    Matching.atLineStart ⟨c, .sgml (as ++ bs), flags, e⟩ (Utf8.size as + g.width) =
      ((unkept? .none bs).isNone && isLineBreak g.base.toNat) := by
  change Matching.atLineStart ⟨c, .utf8 (as ++ bs), flags, e⟩ _ = _
  rcases exists_of_glyphs_eq_cons h with ⟨rest, hfront⟩ | ⟨x, cs, rfl, hfront, rfl⟩
  · -- The byte before the place is the `;` of the reference.
    obtain ⟨body, rfl, hbody⟩ := exists_body_of_unkept? hfront
    have hplace : Utf8.size as + g.width = Utf8.size ((as ++ '&' :: body) ++ [';']) := by
      rw [List.append_assoc, Utf8.size_append, Nat.add_left_cancel_iff]
      exact (size_of_unkept? (hbody [])).symm
    have htext : as ++ '&' :: (body ++ ';' :: rest) = (as ++ '&' :: body) ++ ';' :: rest := by simp
    rw [hfront, hplace, htext, Matching.atLineStart_append]
    rfl
  · have hplace : Utf8.size as + (plain x).width = Utf8.size (as ++ [x]) := by simp [plain]
    rw [hfront, hplace, Matching.atLineStart_append]
    rfl

theorem atLineEnd_glyph {as bs : List Char} {g : Glyph} {gs : List Glyph}
    (h : glyphs .none bs = g :: gs) :
    Matching.atLineEnd ⟨c, .sgml (as ++ bs), flags, Utf8.size (as ++ bs)⟩ (Utf8.size as) =
      ((unkept? .none bs).isNone && (g.base.toNat == 0 || isLineBreak g.base.toNat)) := by
  change Matching.atLineEnd ⟨c, .utf8 (as ++ bs), flags, Utf8.size (as ++ bs)⟩ _ = _
  rcases exists_of_glyphs_eq_cons h with ⟨rest, hfront⟩ | ⟨x, cs, rfl, hfront, rfl⟩
  · obtain ⟨body, rfl, -⟩ := exists_body_of_unkept? hfront
    rw [hfront, Matching.atLineEnd_append]
    rfl
  · rw [hfront, Matching.atLineEnd_append]
    rfl

theorem atLineStart_decode (hsingle : ∀ g ∈ glyphs .none text, g.mark = none)
    (hk : k < (glyphs .none text).length) :
    Matching.atLineStart ⟨c, .utf8 (decode .none text), flags, e⟩
        (decodedOffset text (unitsBefore (glyphs .none text) (k + 1))) =
      isLineBreak (glyphs .none text)[k].base.toNat := by
  obtain ⟨as, bs, htext, has, hbs⟩ := exists_append_of_le text hk
  have hlast : decode .none as =
      ((glyphs .none text).take k).flatMap Glyph.scalars ++ [(glyphs .none text)[k].base] := by
    rw [decode_eq, has, List.take_succ_eq_append_getElem hk, List.flatMap_append,
      List.flatMap_singleton, Glyph.scalars, hsingle _ (List.getElem_mem hk)]
    rfl
  rw [unitsBefore_eq_size has]
  conv_lhs => rw [htext]
  rw [decodedOffset_append, decode_append_of_glyphs (htext ▸ has) (htext ▸ hbs), hlast,
    List.append_assoc]
  exact Matching.atLineStart_append _ _ _

theorem atLineEnd_decode {as bs : List Char} {g : Glyph} {gs : List Glyph}
    (has : glyphs .none as = (glyphs .none (as ++ bs)).take k)
    (hbs : glyphs .none bs = (glyphs .none (as ++ bs)).drop k) (h : glyphs .none bs = g :: gs) :
    Matching.atLineEnd ⟨c, .utf8 (decode .none (as ++ bs)), flags,
        Utf8.size (decode .none (as ++ bs))⟩ (decodedOffset (as ++ bs) (Utf8.size as)) =
      (g.base.toNat == 0 || isLineBreak g.base.toNat) := by
  have hfirst : decode .none bs = g.base :: (g.mark.toList ++ gs.flatMap Glyph.scalars) := by
    rw [decode_eq, h, List.flatMap_cons]
    rfl
  rw [decodedOffset_append, decode_append_of_glyphs has hbs, hfirst]
  exact Matching.atLineEnd_append _ _ _

/-- A line of the decoded text starts where one of the text does, unless a reference to a line break
ends there. -/
theorem atLineStart_eq_iff (hsingle : ∀ g ∈ glyphs .none text, g.mark = none)
    (hk : k ≤ (glyphs .none text).length) {p : Nat} (hp : p = unitsBefore (glyphs .none text) k) :
    Matching.atLineStart ⟨c, .utf8 (decode .none text), flags, e'⟩ (decodedOffset text p) =
        Matching.atLineStart ⟨c, .sgml text, flags, e⟩ p ↔
      ¬ BreakEnds text p := by
  cases k with
  | zero =>
    obtain rfl : p = 0 := hp
    have hzero : decodedOffset text 0 = 0 := by
      rw [decodedOffset, Utf8.before_zero, decode_nil, Utf8.size_nil]
    rw [hzero]
    exact iff_of_true rfl not_breakEnds_zero
  | succ k =>
    obtain ⟨as, bs, htext, has, hbs⟩ := exists_append_of_le text (Nat.le_of_lt hk)
    rw [List.drop_eq_getElem_cons hk] at hbs
    have hstart : unitsBefore (glyphs .none text) k = Utf8.size as := unitsBefore_eq_size has
    have hsource : Matching.atLineStart ⟨c, .sgml (as ++ bs), flags, e⟩ _ = _ :=
      atLineStart_glyph hbs
    have hbegins := breakBegins_iff as hbs
    rw [← htext, ← hstart] at hbegins
    rw [← htext, ← hstart, ← unitsBefore_succ hk] at hsource
    rw [hp, atLineStart_decode hsingle hk, hsource, breakEnds_succ_iff hk, hbegins]
    cases (unkept? .none bs) <;> cases isLineBreak (glyphs .none text)[k].base.toNat <;> simp

/-- A line of the decoded text ends where one of the text does, unless a reference to a line break
begins there. -/
theorem atLineEnd_eq_iff (hk : k ≤ (glyphs .none text).length) {p : Nat}
    (hp : p = unitsBefore (glyphs .none text) k) :
    Matching.atLineEnd ⟨c, .utf8 (decode .none text), flags, Utf8.size (decode .none text)⟩
          (decodedOffset text p) =
        Matching.atLineEnd ⟨c, .sgml text, flags, Utf8.size text⟩ p ↔
      ¬ BreakBegins text p := by
  obtain ⟨as, bs, rfl, has, hbs⟩ := exists_append_of_le text hk
  obtain rfl : p = Utf8.size as := hp.trans (unitsBefore_eq_size has)
  -- At the end of the text both agree; before it the glyph there decides.
  cases hglyphs : glyphs .none bs with
  | nil =>
    obtain rfl : bs = [] := by
      refine Decidable.byContradiction fun hne => ?_
      have hpos := size_pos_of_ne_nil hne
      rw [← extent_glyphs, hglyphs] at hpos
      exact Nat.lt_irrefl 0 hpos
    have hnone : ¬ BreakBegins (as ++ []) (Utf8.size as) := by
      rintro ⟨span, g, hmem, -, hstart⟩
      obtain ⟨⟨rest, hfront⟩, -⟩ := reference_mem_append_iff.1 ⟨hmem, hstart⟩
      cases hfront
    rw [decodedOffset_append, List.append_nil] at *
    exact iff_of_true (by simp [Matching.atLineEnd, Source.atEnd]) hnone
  | cons g gs =>
    rw [atLineEnd_decode has hbs hglyphs, atLineEnd_glyph hglyphs, breakBegins_iff as hglyphs]
    cases hfront : unkept? .none bs with
    | none => simp
    | some r =>
      have hbase : (g.base.toNat == 0) = false := by
        rw [glyphs_of_unkept? hfront] at hglyphs
        obtain ⟨rfl, -⟩ := List.cons.inj hglyphs
        exact beq_eq_false_iff_ne.2 fun h => base_ne_nul_of_unkept? hfront (Char.toNat_inj.1 h)
      simp [hbase]

end Places

end References

/-- Where no reference stands for a character with a mark, the start of a line is told at a boundary
as in the decoded text unless a reference to a line break ends there, and the end of a line unless
one begins there. -/
theorem lineAnchors_mirror_iff {text : List Char}
    (hsingle : ∀ span g, Segment.reference span g ∈ segments .none text → g.mark = none) {p : Nat}
    (hp : (Source.sgml text).Boundary p) (g : Grammar) (id : Nat) (invert : Bool) (flags : Flags) :
    (g.nodes[id]? = some (.lineStart invert) →
      ((g.rule id).Mirrors (.sgml text) (.utf8 (decode .none text)) (decodedOffset text) p none
          flags ↔ ¬ BreakEnds text p)) ∧
      (g.nodes[id]? = some (.lineEnd invert) →
        ((g.rule id).Mirrors (.sgml text) (.utf8 (decode .none text)) (decodedOffset text) p none
            flags ↔ ¬ BreakBegins text p)) := by
  have hmark := mark_eq_none_of_mem_glyphs hsingle
  have hmirrors := mirrors hmark
  obtain ⟨k, hk, hpk⟩ := (spells text).exists_of_boundary hp
  have hle : p ≤ (Source.sgml text).size := hmirrors.le_size ⟨k, hk, hpk⟩
  have hle' : decodedOffset text p ≤ (Source.utf8 (decode .none text)).size :=
    hmirrors.image_le_size ⟨k, hk, hpk⟩
  constructor
  · intro hnode
    rw [Recognizer.Mirrors, ← atLineStart_eq_iff hmark hk hpk, ← Matching.place_image_iff]
    simp only [Grammar.rule, Grammar.match?, Option.map_none, Source.limit, if_pos hle, if_pos hle',
      Grammar.attempt_eq hnode, Matching.attempt]
    rfl
  · intro hnode
    rw [Recognizer.Mirrors, ← atLineEnd_eq_iff hk hpk, ← Matching.place_image_iff]
    simp only [Grammar.rule, Grammar.match?, Option.map_none, Source.limit, if_pos hle, if_pos hle',
      Grammar.attempt_eq hnode, Matching.attempt]
    rfl

/-- A line starts after a line break that is written as itself, and before a reference. -/
theorem lineAnchors_mirror_iff_before_amp :
    (∀ span g, Segment.reference span g ∈ segments .none ['\n', '&', 'a', 'm', 'p', ';'] →
        g.mark = none) ∧
      (Source.sgml ['\n', '&', 'a', 'm', 'p', ';']).Boundary 1 ∧
      Grammar.match? ⟨.ascii, #[.lineStart false]⟩ 0 (.utf8 ['\n', '&']) 1 none .none =
        some (.leaf 1 1) := by
  have hsegments : segments .none ['\n', '&', 'a', 'm', 'p', ';'] =
      [.text ['\n'], .reference ⟨1, 6⟩ ⟨'&', none, 5⟩] := by decide +kernel
  have hsingle : ∀ span g,
      Segment.reference span g ∈ segments .none ['\n', '&', 'a', 'm', 'p', ';'] →
        g.mark = none := by
    intro span g hg
    rw [hsegments] at hg
    simp at hg
    rw [hg.2]
  have hboundary : (Source.sgml ['\n', '&', 'a', 'm', 'p', ';']).Boundary 1 :=
    .step (g := ⟨'\n', none, 1⟩) .zero (by decide +kernel)
  have hbreak : ¬ BreakEnds ['\n', '&', 'a', 'm', 'p', ';'] 1 := by
    rintro ⟨span, g, hg, -, hstop⟩
    rw [hsegments] at hg
    simp at hg
    rw [hg.1] at hstop
    cases hstop
  have hmirrors := ((lineAnchors_mirror_iff hsingle hboundary ⟨.ascii, #[.lineStart false]⟩ 0 false
    .none).1 rfl).2 hbreak
  have hmatch : Grammar.match? ⟨.ascii, #[.lineStart false]⟩ 0
      (.sgml ['\n', '&', 'a', 'm', 'p', ';']) 1 none .none = some (.leaf 1 1) := by decide +kernel
  have hdecode : decode .none ['\n', '&', 'a', 'm', 'p', ';'] = ['\n', '&'] := by decide +kernel
  have hone : decodedOffset ['\n', '&', 'a', 'm', 'p', ';'] 1 = 1 := by decide +kernel
  refine ⟨hsingle, hboundary, ?_⟩
  simpa [Recognizer.Mirrors, Grammar.rule, hmatch, hdecode, hone, mapOffsets] using hmirrors

/-- The line break between `a` and `b` is written as a reference, and neither anchor sees it. -/
theorem lineAnchors_miss_reference :
    (∀ span g, Segment.reference span g ∈ segments .none ['a', '&', '#', '1', '0', ';', 'b'] →
        g.mark = none) ∧
      (Source.sgml ['a', '&', '#', '1', '0', ';', 'b']).Boundary 1 ∧
      (Source.sgml ['a', '&', '#', '1', '0', ';', 'b']).Boundary 6 ∧
      decode .none ['a', '&', '#', '1', '0', ';', 'b'] = ['a', '\n', 'b'] ∧
      decodedOffset ['a', '&', '#', '1', '0', ';', 'b'] 1 = 1 ∧
      decodedOffset ['a', '&', '#', '1', '0', ';', 'b'] 6 = 2 ∧
      Grammar.match? ⟨.ascii, #[.lineStart false, .lineEnd false]⟩ 0
        (.sgml ['a', '&', '#', '1', '0', ';', 'b']) 6 none .none = none ∧
      Grammar.match? ⟨.ascii, #[.lineStart false, .lineEnd false]⟩ 0 (.utf8 ['a', '\n', 'b']) 2 none
        .none = some (.leaf 2 2) ∧
      Grammar.match? ⟨.ascii, #[.lineStart false, .lineEnd false]⟩ 1
        (.sgml ['a', '&', '#', '1', '0', ';', 'b']) 1 none .none = none ∧
      Grammar.match? ⟨.ascii, #[.lineStart false, .lineEnd false]⟩ 1 (.utf8 ['a', '\n', 'b']) 1 none
        .none = some (.leaf 1 1) := by
  have hsegments : segments .none ['a', '&', '#', '1', '0', ';', 'b'] =
      [.text ['a'], .reference ⟨1, 6⟩ ⟨'\n', none, 5⟩, .text ['b']] := by decide +kernel
  have hone : (Source.sgml ['a', '&', '#', '1', '0', ';', 'b']).Boundary 1 :=
    .step (g := ⟨'a', none, 1⟩) .zero (by decide +kernel)
  have hsix : (Source.sgml ['a', '&', '#', '1', '0', ';', 'b']).Boundary 6 :=
    .step (g := ⟨'\n', none, 5⟩) hone (by decide +kernel)
  refine ⟨?_, hone, hsix, by decide +kernel, by decide +kernel, by decide +kernel, ?_, ?_, ?_, ?_⟩
  · intro span g hg
    rw [hsegments] at hg
    simp at hg
    rw [hg.2]
  all_goals decide +kernel

end Sgml

end Recognition
