import Recognition.Sgml.Decoding
import Recognition.Source

namespace Recognition.Sgml

def plain (c : Char) : Glyph := ⟨c, none, c.utf8Size⟩

def Segment.glyphs : Segment → List Glyph
  | text chars => chars.map plain
  | reference _ glyph => [glyph]

def glyphs (keep : EscapeSet) (text : List Char) : List Glyph :=
  (segments keep text).flatMap Segment.glyphs

variable {keep : EscapeSet}

theorem decode_eq (text : List Char) :
    decode keep text = (glyphs keep text).flatMap Glyph.scalars := by
  rw [decode, glyphs, List.flatMap_assoc]
  congr 1
  funext s
  cases s with
  | text chars => simp [Segment.scalars, Segment.glyphs, List.flatMap_map, plain, Glyph.scalars]
  | reference span glyph => simp [Segment.scalars, Segment.glyphs]

theorem segmentsFrom_of_unkept? {cs rest : List Char} {g : Glyph}
    (h : unkept? keep cs = some (g, rest)) (pos : Nat) :
    segmentsFrom keep pos cs =
      .reference ⟨pos, pos + g.width⟩ g :: segmentsFrom keep (pos + g.width) rest := by
  rw [segmentsFrom]
  split <;> simp_all

theorem segmentsFrom_cons {c : Char} {cs : List Char} (h : unkept? keep (c :: cs) = none)
    (pos : Nat) :
    segmentsFrom keep pos (c :: cs) =
      .text (c :: cs.takeWhile (· ≠ '&')) ::
        segmentsFrom keep (pos + Utf8.size (c :: cs.takeWhile (· ≠ '&')))
          (cs.dropWhile (· ≠ '&')) := by
  rw [segmentsFrom]
  split <;> simp_all

theorem segmentsFrom_nil (pos : Nat) : segmentsFrom keep pos [] = [] := by
  rw [segmentsFrom]
  split <;> simp_all [unkept?]

theorem flatMap_segmentsFrom (pos : Nat) (cs : List Char) :
    (segmentsFrom keep pos cs).flatMap Segment.glyphs = glyphs keep cs := by
  have hmove (pos pos' : Nat) : (segmentsFrom keep pos cs).flatMap Segment.glyphs =
      (segmentsFrom keep pos' cs).flatMap Segment.glyphs := by
    fun_induction segmentsFrom keep pos cs generalizing pos' with
    | case1 pos cs g rest hr ih =>
      rw [segmentsFrom_of_unkept? hr, List.flatMap_cons, List.flatMap_cons, ih]
      rfl
    | case2 pos hr => rw [segmentsFrom_nil]
    | case3 pos c cs hr run ih =>
      rw [segmentsFrom_cons hr, List.flatMap_cons, List.flatMap_cons, ih]
  exact hmove pos 0

@[simp] theorem glyphs_nil : glyphs keep [] = [] := by
  rw [glyphs, segments, segmentsFrom_nil]
  rfl

theorem glyphs_of_unkept? {cs rest : List Char} {g : Glyph} (h : unkept? keep cs = some (g, rest)) :
    glyphs keep cs = g :: glyphs keep rest := by
  rw [glyphs, segments, segmentsFrom_of_unkept? h, List.flatMap_cons, flatMap_segmentsFrom]
  rfl

theorem unkept?_eq_none_of_ne {c : Char} (h : c ≠ '&') (cs : List Char) :
    unkept? keep (c :: cs) = none := by
  unfold unkept?
  split
  · simp_all
  · rfl

theorem segmentsFrom_plain {c : Char} {cs : List Char} (h : unkept? keep (c :: cs) = none)
    (pos : Nat) :
    segmentsFrom keep pos (c :: cs) = .text [c] :: segmentsFrom keep (pos + c.utf8Size) cs ∨
      ∃ run rest, segmentsFrom keep (pos + c.utf8Size) cs = .text run :: rest ∧
        segmentsFrom keep pos (c :: cs) = .text (c :: run) :: rest := by
  rw [segmentsFrom_cons h]
  cases cs with
  | nil => exact .inl rfl
  | cons d ds =>
    by_cases hd : d = '&'
    · left
      simp [hd]
    · right
      have hne : decide (d ≠ '&') = true := by simpa using hd
      refine ⟨_, _, segmentsFrom_cons (unkept?_eq_none_of_ne hd ds) _, ?_⟩
      rw [List.takeWhile_cons, List.dropWhile_cons, if_pos hne, if_pos hne, Utf8.size_cons c,
        Nat.add_assoc]

theorem glyphs_cons {c : Char} {cs : List Char} (h : unkept? keep (c :: cs) = none) :
    glyphs keep (c :: cs) = plain c :: glyphs keep cs := by
  rw [glyphs, segments]
  rcases segmentsFrom_plain h 0 with hown | ⟨run, rest, hrun, hmore⟩
  · rw [hown, List.flatMap_cons, flatMap_segmentsFrom]
    rfl
  · rw [← flatMap_segmentsFrom (0 + c.utf8Size) cs, hrun, hmore]
    rfl

/-- Induction that takes from the front a reference or a character that stands for itself. -/
@[elab_as_elim]
theorem unkept_induction (keep : EscapeSet) {motive : List Char → Prop} (nil : motive [])
    (reference : ∀ {cs rest : List Char} {g : Glyph}, unkept? keep cs = some (g, rest) →
      motive rest → motive cs)
    (plain : ∀ {c : Char} {cs : List Char}, unkept? keep (c :: cs) = none → motive cs →
      motive (c :: cs))
    (text : List Char) : motive text := by
  induction hn : text.length using Nat.strongRecOn generalizing text with
  | ind n ih =>
    cases hfront : unkept? keep text with
    | some r => exact reference hfront (ih _ (hn ▸ length_unkept?_lt hfront) r.2 rfl)
    | none =>
      cases text with
      | nil => exact nil
      | cons c cs => exact plain hfront (ih cs.length (hn ▸ Nat.lt_succ_self _) cs rfl)

@[simp] theorem decode_nil : decode keep [] = [] := by
  rw [decode_eq, glyphs_nil]
  rfl

theorem decode_of_unkept? {cs rest : List Char} {g : Glyph} (h : unkept? keep cs = some (g, rest)) :
    decode keep cs = g.scalars ++ decode keep rest := by
  rw [decode_eq, decode_eq, glyphs_of_unkept? h, List.flatMap_cons]

theorem decode_cons {c : Char} {cs : List Char} (h : unkept? keep (c :: cs) = none) :
    decode keep (c :: cs) = c :: decode keep cs := by
  rw [decode_eq, decode_eq, glyphs_cons h, List.flatMap_cons]
  rfl

theorem unkept?_none (cs : List Char) : unkept? .none ('&' :: cs) = reference? cs := by
  have hcovers (c : Char) : EscapeSet.none.covers c = false := by
    unfold EscapeSet.covers
    split <;> rfl
  simp only [unkept?, hcovers]
  cases reference? cs <;> rfl

theorem reference?_eq_unkept? (as cs : List Char) (e : Nat) :
    Source.reference? (as ++ cs) (Utf8.size as) e =
      ((unkept? .none cs).map Prod.fst).filter fun g => Utf8.size as + g.width ≤ e := by
  rw [Source.reference?, Utf8.locate_size_append]
  cases cs with
  | nil => rfl
  | cons c cs =>
    by_cases hc : c = '&'
    · rw [hc, unkept?_none]
      rfl
    · rw [unkept?_eq_none_of_ne hc]
      split
      · simp_all
      · rfl

theorem reference?_append (as cs : List Char) (e : Nat) :
    Source.reference? (as ++ '&' :: cs) (Utf8.size as) e =
      ((reference? cs).map Prod.fst).filter fun g => Utf8.size as + g.width ≤ e := by
  rw [reference?_eq_unkept?, unkept?_none]

/-- A reference is read by its body alone, whatever follows its `;`. -/
theorem exists_body_of_reference? {cs rest : List Char} {g : Glyph}
    (h : reference? cs = some (g, rest)) :
    ∃ body, cs = body ++ ';' :: rest ∧
      ∀ rest', reference? (body ++ ';' :: rest') = some (g, rest') := by
  simp only [reference?, Option.bind_eq_bind, Option.bind_eq_some_iff, Option.pure_def] at h
  obtain ⟨⟨body, r⟩, hbody, scalars, hmeaning, g', hg, hr⟩ := h
  obtain ⟨rfl, rfl⟩ := Prod.mk.inj (Option.some.inj hr)
  obtain ⟨hcs, hsemi, hends⟩ := body?_eq_some hbody
  refine ⟨body, hcs, ?_⟩
  intro rest'
  simp [reference?, body?_append hsemi hends, hmeaning, hg]

theorem not_endsReference_of_mem_body {body rest : List Char} {g : Glyph}
    (h : reference? (body ++ ';' :: rest) = some (g, rest)) :
    ∀ c ∈ body, endsReference c = false := by
  simp only [reference?, Option.bind_eq_bind, Option.bind_eq_some_iff, Option.pure_def] at h
  obtain ⟨⟨b, r⟩, hb, _, _, _, _, hr⟩ := h
  obtain ⟨_, rfl⟩ := Prod.mk.inj (Option.some.inj hr)
  obtain ⟨hbody, _, hends⟩ := body?_eq_some hb
  obtain rfl := List.append_cancel_right hbody
  exact hends

theorem exists_body_of_unkept? {cs rest : List Char} {g : Glyph}
    (h : unkept? keep cs = some (g, rest)) :
    ∃ body, cs = '&' :: (body ++ ';' :: rest) ∧
      ∀ rest', unkept? keep ('&' :: (body ++ ';' :: rest')) = some (g, rest') := by
  unfold unkept? at h
  split at h
  · obtain ⟨href, hkeep⟩ := Option.filter_eq_some_iff.1 h
    obtain ⟨body, rfl, hbody⟩ := exists_body_of_reference? href
    refine ⟨body, rfl, ?_⟩
    intro rest'
    simp [unkept?, hbody, Option.filter, hkeep]
  · simp at h

theorem size_of_unkept? {cs rest : List Char} {g : Glyph} (h : unkept? keep cs = some (g, rest)) :
    Utf8.size cs = g.width + Utf8.size rest := by
  unfold unkept? at h
  split at h
  · exact size_of_reference? (Option.filter_eq_some_iff.1 h).1
  · simp at h

theorem unkept?_eq_none_of_append (as bs : List Char) (h : unkept? keep (as ++ bs) = none) :
    unkept? keep as = none := by
  cases has : unkept? keep as with
  | none => rfl
  | some r =>
    obtain ⟨body, rfl, hbody⟩ := exists_body_of_unkept? has
    have hwhole := hbody (r.2 ++ bs)
    simp_all

theorem exists_tail_of_unkept? {cs rest : List Char} {g : Glyph}
    (h : unkept? keep cs = some (g, rest)) :
    ∃ tail, cs = '&' :: tail ++ rest ∧ (∀ c ∈ tail, endsReference c = false) ∧
      Utf8.size ('&' :: tail) = g.width ∧
      ∀ rest', unkept? keep ('&' :: tail ++ rest') = some (g, rest') := by
  obtain ⟨body, rfl, hbody⟩ := exists_body_of_unkept? h
  have hsize := size_of_unkept? (hbody [])
  have hends : ∀ c ∈ body, endsReference c = false := by
    have hread := hbody rest
    rw [unkept?, Option.filter_eq_some_iff] at hread
    exact not_endsReference_of_mem_body hread.1
  refine ⟨body ++ [';'], by simp, ?_, by simpa using hsize, ?_⟩
  · intro c hc
    rcases List.mem_append.1 hc with hc | hc
    · exact hends c hc
    · obtain rfl := List.mem_singleton.1 hc
      rfl
  · intro rest'
    simpa using hbody rest'

theorem unkept?_append {as rest : List Char} {g : Glyph} (h : unkept? keep as = some (g, rest))
    (bs : List Char) : unkept? keep (as ++ bs) = some (g, rest ++ bs) := by
  obtain ⟨tail, rfl, -, -, hread⟩ := exists_tail_of_unkept? h
  rw [List.append_assoc]
  exact hread (rest ++ bs)

theorem size_pos_of_ne_nil {cs : List Char} (h : cs ≠ []) : 0 < Utf8.size cs := by
  obtain ⟨c, cs, rfl⟩ := List.exists_cons_of_ne_nil h
  exact Nat.lt_of_lt_of_le c.utf8Size_pos (Nat.le_add_right _ _)

theorem exists_of_unkept?_append {as bs rest : List Char} {g : Glyph}
    (h : unkept? keep (as ++ bs) = some (g, rest)) (hwidth : g.width ≤ Utf8.size as) :
    ∃ after, unkept? keep as = some (g, after) ∧ rest = after ++ bs := by
  obtain ⟨tail, hwhole, -, hsize, hread⟩ := exists_tail_of_unkept? h
  rcases List.append_eq_append_iff.1 hwhole with ⟨ds, htail, hbs⟩ | ⟨after, rfl, rfl⟩
  · obtain rfl : ds = [] := by
      refine Decidable.byContradiction fun hne => ?_
      have := size_pos_of_ne_nil hne
      rw [← hsize, htail, Utf8.size_append] at hwidth
      omega
    rw [List.append_nil] at htail
    exact ⟨[], by simpa [htail] using hread [], hbs.symm⟩
  · exact ⟨after, hread after, rfl⟩

theorem exists_append_of_le (text : List Char) {k : Nat} (hk : k ≤ (glyphs keep text).length) :
    ∃ as bs, text = as ++ bs ∧ glyphs keep as = (glyphs keep text).take k ∧
      glyphs keep bs = (glyphs keep text).drop k := by
  -- What is before the cut is read without the text after it, and must give the same glyphs.
  induction text using unkept_induction keep generalizing k with
  | nil => exact ⟨[], [], rfl, by simp, by simp⟩
  | @reference cs rest g hfront ih =>
    cases k with
    | zero => exact ⟨[], cs, rfl, glyphs_nil, rfl⟩
    | succ k =>
      obtain ⟨body, rfl, hbody⟩ := exists_body_of_unkept? hfront
      rw [glyphs_of_unkept? hfront] at hk ⊢
      obtain ⟨as, bs, rfl, has, hbs⟩ := ih (Nat.le_of_succ_le_succ hk)
      refine ⟨'&' :: (body ++ ';' :: as), bs, by simp, ?_, hbs⟩
      rw [glyphs_of_unkept? (hbody as), has, List.take_succ_cons]
  | @plain c cs hfront ih =>
    cases k with
    | zero => exact ⟨[], c :: cs, rfl, glyphs_nil, rfl⟩
    | succ k =>
      rw [glyphs_cons hfront] at hk ⊢
      obtain ⟨as, bs, rfl, has, hbs⟩ := ih (Nat.le_of_succ_le_succ hk)
      refine ⟨c :: as, bs, rfl, ?_, hbs⟩
      rw [glyphs_cons (unkept?_eq_none_of_append (c :: as) bs hfront), has, List.take_succ_cons]

theorem exists_of_reference_mem {pos : Nat} {cs : List Char} {span : Span} {g : Glyph}
    (h : Segment.reference span g ∈ segmentsFrom keep pos cs) :
    ∃ cs' rest, reference? cs' = some (g, rest) := by
  fun_induction segmentsFrom keep pos cs with
  | case1 pos cs g' rest hr ih =>
    rcases List.mem_cons.1 h with heq | hmem
    · obtain ⟨_, rfl⟩ := Segment.reference.inj heq
      unfold unkept? at hr
      split at hr
      · exact ⟨_, rest, (Option.filter_eq_some_iff.1 hr).1⟩
      · simp at hr
    · exact ih hmem
  | case2 pos hr => cases h
  | case3 pos c cs hr run ih =>
    rcases List.mem_cons.1 h with heq | hmem
    · cases heq
    · exact ih hmem

theorem mem_glyphs {text : List Char} {g : Glyph} (h : g ∈ glyphs keep text) :
    (∃ c, g = plain c) ∨ ∃ span, Segment.reference span g ∈ segments keep text := by
  obtain ⟨s, hs, hg⟩ := List.mem_flatMap.1 h
  cases s with
  | text chars =>
    obtain ⟨c, _, rfl⟩ := List.mem_map.1 hg
    exact .inl ⟨c, rfl⟩
  | reference span glyph =>
    obtain rfl := List.mem_singleton.1 hg
    exact .inr ⟨span, hs⟩

theorem width_pos_of_mem_glyphs {text : List Char} : ∀ g ∈ glyphs keep text, 0 < g.width := by
  intro g hg
  rcases mem_glyphs hg with ⟨c, rfl⟩ | ⟨span, hspan⟩
  · exact c.utf8Size_pos
  · obtain ⟨cs, rest, href⟩ := exists_of_reference_mem hspan
    obtain ⟨body, _, hwidth⟩ := reference?_eq_some href
    omega

theorem exists_of_glyphs_eq_cons {text : List Char} {g : Glyph} {gs : List Glyph}
    (h : glyphs keep text = g :: gs) :
    (∃ rest, unkept? keep text = some (g, rest)) ∨
      ∃ c cs, text = c :: cs ∧ unkept? keep text = none ∧ g = plain c := by
  cases hfront : unkept? keep text with
  | some r =>
    obtain ⟨g', rest⟩ := r
    rw [glyphs_of_unkept? hfront] at h
    obtain ⟨rfl, _⟩ := List.cons.inj h
    exact .inl ⟨rest, rfl⟩
  | none =>
    cases text with
    | nil => simp at h
    | cons c cs =>
      rw [glyphs_cons hfront] at h
      obtain ⟨rfl, _⟩ := List.cons.inj h
      exact .inr ⟨c, cs, rfl, rfl, rfl⟩

end Recognition.Sgml
