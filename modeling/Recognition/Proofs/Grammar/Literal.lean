import Recognition.Proofs.Sgml.Walk

namespace Recognition

namespace Classifier

variable {c : Classifier} {flags : Flags}

def form (c : Classifier) (flags : Flags) : Char → Char := if flags.ignoreCase then c.fold else id

theorem form_eq_id (h : flags.ignoreCase = false) : c.form flags = id := by
  unfold form
  rw [h]
  rfl

theorem same_iff {a b : Char} : c.same flags a b = true ↔ c.form flags a = c.form flags b := by
  unfold same form
  cases flags.ignoreCase with
  | false => simp
  | true =>
    simp only [Bool.true_and, Bool.or_eq_true, beq_iff_eq, if_true, or_iff_right_iff_imp]
    exact congrArg c.fold

theorem strip?_eq_some_iff {cs text rest : List Char} :
    c.strip? flags cs text = some rest ↔
      ∃ bs, text = bs ++ rest ∧ cs.map (c.form flags) = bs.map (c.form flags) := by
  -- The cases are those of `strip?`: nothing is left to find, the text is at its end, and a scalar
  -- that agrees with the next one or does not.
  fun_induction strip? c flags cs text with
  | case1 text =>
    constructor
    · intro h
      obtain rfl := Option.some.inj h
      exact ⟨[], rfl, rfl⟩
    · rintro ⟨bs, rfl, hbs⟩
      obtain rfl := List.map_eq_nil_iff.1 hbs.symm
      rfl
  | case2 a as =>
    refine iff_of_false (by simp) ?_
    rintro ⟨bs, htext, hbs⟩
    obtain ⟨rfl, -⟩ := List.append_eq_nil_iff.1 htext.symm
    cases hbs
  | case3 a as b bs hsame ih =>
    rw [ih]
    constructor
    · rintro ⟨ds, rfl, hds⟩
      exact ⟨b :: ds, rfl, by rw [List.map_cons, List.map_cons, same_iff.1 hsame, hds]⟩
    · rintro ⟨ds, htext, hds⟩
      cases ds with
      | nil => cases hds
      | cons d ds => exact ⟨ds, (List.cons.inj htext).2, (List.cons.inj hds).2⟩
  | case4 a as b bs hsame =>
    refine iff_of_false (by simp) ?_
    rintro ⟨ds, htext, hds⟩
    cases ds with
    | nil => cases hds
    | cons d ds =>
      obtain ⟨rfl, -⟩ := List.cons.inj htext
      exact hsame (same_iff.2 (List.cons.inj hds).1)

end Classifier

namespace Matching

variable {m : Matching} {text : List Char} {pos stop : Nat}

/-- A walk from `pos` to `stop` over glyphs whose scalars are those of `text`. -/
def Spelled (m : Matching) (text : List Char) (pos stop : Nat) : Prop :=
  ∃ gs, m.source.Walks m.stop pos gs stop ∧
    (gs.flatMap Glyph.scalars).map (m.classifier.form m.flags) =
      text.map (m.classifier.form m.flags)

theorem spelled_nil (hpos : pos ≤ m.stop) : m.Spelled [] pos stop ↔ pos = stop := by
  constructor
  · rintro ⟨gs, hwalks, hgs⟩
    cases hwalks with
    | nil => rfl
    | cons => cases hgs
  · rintro rfl
    exact ⟨[], .nil hpos, rfl⟩

theorem spelled_iff (hne : text ≠ []) :
    m.Spelled text pos stop ↔
      ∃ g, m.source.glyph? pos m.stop = some g ∧
        ∃ rest, m.classifier.strip? m.flags g.scalars text = some rest ∧
          m.Spelled rest (pos + g.width) stop := by
  -- The first glyph takes the first scalars of the text, one or two of them.
  constructor
  · rintro ⟨gs, hwalks, hgs⟩
    cases hwalks with
    | nil => exact absurd (List.map_eq_nil_iff.1 hgs.symm) hne
    | @cons _ _ g gs hg hrest =>
      rw [List.flatMap_cons, List.map_append] at hgs
      obtain ⟨bs, rest, rfl, hbs, hrest'⟩ := List.map_eq_append_iff.1 hgs.symm
      have hstrip : m.classifier.strip? m.flags g.scalars (bs ++ rest) = some rest :=
        Classifier.strip?_eq_some_iff.2 ⟨bs, rfl, hbs.symm⟩
      exact ⟨g, hg, rest, hstrip, gs, hrest, hrest'.symm⟩
  · rintro ⟨g, hg, rest, hstrip, gs, hwalks, hgs⟩
    obtain ⟨bs, rfl, hbs⟩ := Classifier.strip?_eq_some_iff.1 hstrip
    refine ⟨g :: gs, .cons hg hwalks, ?_⟩
    rw [List.flatMap_cons, List.map_append, List.map_append, hbs, hgs]

theorem literalEnd?_eq_some_iff (hpos : pos ≤ m.stop) :
    m.literalEnd? text pos = some stop ↔ m.Spelled text pos stop := by
  induction hn : text.length using Nat.strongRecOn generalizing text pos with
  | ind n ih =>
    rw [literalEnd?_eq]
    by_cases hempty : text = []
    · rw [hempty, spelled_nil hpos]
      simp
    · have hrest {g : Glyph} {rest : List Char} (hg : m.source.glyph? pos m.stop = some g)
          (hstrip : m.classifier.strip? m.flags g.scalars text = some rest) :
          m.literalEnd? rest (pos + g.width) = some stop ↔ m.Spelled rest (pos + g.width) stop := by
        have := Classifier.length_strip? hstrip
        have := g.scalars_length_pos
        exact ih rest.length (by omega) (Source.glyph?_bounds hg).2 rfl
      rw [if_neg (by simpa using hempty), spelled_iff hempty]
      simp only [Option.bind_eq_some_iff]
      apply exists_congr
      intro g
      apply and_congr_right
      intro hg
      apply exists_congr
      intro rest
      exact and_congr_right (hrest hg)

end Matching

namespace Grammar

variable {g : Grammar} {id : Nat}

theorem match?_literal {ps : List Char} (hnode : g.nodes[id]? = some (.literal ps)) (src : Source)
    (start : Nat) (stop : Option Nat) (flags : Flags) (m : Match) :
    g.match? id src start stop flags = some m ↔
      ∃ gs q, src.Walks (src.limit stop) start gs q ∧
        (gs.flatMap Glyph.scalars).map (g.classifier.form flags) =
          ps.map (g.classifier.form flags) ∧
        m = .leaf start q := by
  have hspelled {q : Nat} (hstart : start ≤ src.limit stop) :
      Matching.literalEnd? ⟨g.classifier, src, flags, src.limit stop⟩ ps start = some q ↔
        Matching.Spelled ⟨g.classifier, src, flags, src.limit stop⟩ ps start q :=
    Matching.literalEnd?_eq_some_iff hstart
  by_cases hstart : start ≤ src.limit stop
  · simp only [match?, if_pos hstart, attempt_eq hnode, Matching.attempt, Option.map_eq_some_iff,
      hspelled hstart]
    constructor
    · rintro ⟨q, ⟨gs, hwalks, hgs⟩, rfl⟩
      exact ⟨gs, q, hwalks, hgs, rfl⟩
    · rintro ⟨gs, q, hwalks, hgs, rfl⟩
      exact ⟨q, ⟨gs, hwalks, hgs⟩, rfl⟩
  · rw [match?, if_neg hstart]
    refine iff_of_false (by simp) ?_
    rintro ⟨gs, q, hwalks, -⟩
    have := hwalks.bounds
    omega

/-- A text that is given with references matches all of another if both decode to the same. In any
source a text matches from `start` to `q` if glyphs lead from one to the other of which the scalars
are, one by one, those of the text, in the form in which they are compared. -/
theorem literal_matches_iff (g : Grammar) (id : Nat) :
    (∀ text text' flags, g.nodes[id]? = some (.sgmlLiteral text) → '\x00' ∉ text' →
      flags.ignoreCase = false →
        ((g.match? id (.sgml text') 0 none flags).map Match.span = some ⟨0, Utf8.size text'⟩ ↔
          Sgml.decode .none text = Sgml.decode .none text')) ∧
      ∀ ps, g.nodes[id]? = some (.literal ps) → ∀ src start stop flags m,
        g.match? id src start stop flags = some m ↔
          ∃ gs q, src.Walks (src.limit stop) start gs q ∧
            (gs.flatMap Glyph.scalars).map (g.classifier.form flags) =
              ps.map (g.classifier.form flags) ∧
            m = .leaf start q := by
  refine ⟨?_, fun ps hnode => match?_literal hnode⟩
  intro text text' flags hnode hnul hcase
  have hwalks := Sgml.walks_glyphs hnul
  rw [Option.map_eq_some_iff, Sgml.decode_eq text']
  simp only [match?_literal hnode, Classifier.form_eq_id hcase, List.map_id]
  constructor
  · rintro ⟨m, ⟨gs, q, hwalks', hgs, rfl⟩, hspan⟩
    obtain rfl : q = Utf8.size text' := (Span.mk.inj hspan).2
    -- There is one walk to the end of the text.
    have hend := hwalks'.walk_eq (Source.glyph?_eq_none (Nat.le_refl _))
    rw [← hgs, (Prod.mk.inj ((Sgml.walk_eq_glyphs hnul).symm.trans hend)).1]
  · intro hdecode
    exact ⟨_, ⟨_, _, hwalks, hdecode.symm, rfl⟩, rfl⟩

/-- A reference to two scalars matches the two as they are, and capitals match small letters. -/
theorem literal_matches_iff_two_spellings :
    let g : Grammar := ⟨.unicode, #[.sgmlLiteral ['&', 's', 'm', 'a', 'c', 'r', ';'],
      .literal ['k', 'o']]⟩
    g.nodes[0]? = some (.sgmlLiteral ['&', 's', 'm', 'a', 'c', 'r', ';']) ∧
      '\x00' ∉ ['s', '\u0304'] ∧ g.nodes[1]? = some (.literal ['k', 'o']) ∧
      (g.match? 0 (.sgml ['s', '\u0304']) 0 none .none).map Match.span = some ⟨0, 3⟩ ∧
      g.match? 1 (.utf8 ['x', 'K', 'O', 'x']) 1 (some 3) ⟨true, false⟩ = some (.leaf 1 3) := by
  intro g
  have hnode : g.nodes[0]? = some (.sgmlLiteral ['&', 's', 'm', 'a', 'c', 'r', ';']) := rfl
  have hnode' : g.nodes[1]? = some (.literal ['k', 'o']) := rfl
  have hnul : '\x00' ∉ ['s', '\u0304'] := by decide
  refine ⟨hnode, hnul, hnode', ?_, ?_⟩
  · apply ((literal_matches_iff g 0).1 _ _ .none hnode hnul rfl).2
    decide +kernel
  · have hwalks : (Source.utf8 ['x', 'K', 'O', 'x']).Walks 3 1 [⟨'K', none, 1⟩, ⟨'O', none, 1⟩] 3 :=
      .cons (by decide +kernel) (.cons (by decide +kernel) (.nil (Nat.le_refl _)))
    exact ((literal_matches_iff g 1).2 _ hnode' _ 1 (some 3) ⟨true, false⟩ _).2
      ⟨_, 3, hwalks, by decide +kernel, rfl⟩

end Grammar

end Recognition
