import Recognition.Proofs.OffsetMap
import Recognition.Proofs.Sgml.Decoding
import Recognition.Proofs.Sgml.Entities

namespace Recognition.Sgml

section Widths

theorem ne_nil_of_numbered? {number : List Char} {c : Char} (h : numbered? number = some c) :
    number ≠ [] := by
  rintro rfl
  simp [numbered?, number?] at h

theorem size_le_of_meaning? {body scalars : List Char} (h : meaning? body = some scalars) :
    Utf8.size scalars ≤ Utf8.size body + 2 := by
  unfold meaning? at h
  split at h
  · rename_i number
    obtain ⟨c, hc, rfl⟩ := Option.map_eq_some_iff.1 h
    obtain ⟨d, digits, rfl⟩ := List.exists_cons_of_ne_nil (ne_nil_of_numbered? hc)
    -- `&#`, a digit and `;` make four bytes, and no scalar takes more.
    have hscalar := c.utf8Size_le_four
    have hdigit := d.utf8Size_pos
    have hnum : Char.utf8Size '#' = 1 := rfl
    simp only [Utf8.size_cons, Utf8.size_nil]
    omega
  · exact size_le_of_scalarsOf? h

theorem size_scalars_le_width {cs rest : List Char} {g : Glyph}
    (h : reference? cs = some (g, rest)) : Utf8.size g.scalars ≤ g.width := by
  simp only [reference?, Option.bind_eq_bind, Option.bind_eq_some_iff, Option.pure_def] at h
  obtain ⟨⟨body, _⟩, _, scalars, hmeaning, g', hg, hr⟩ := h
  obtain ⟨rfl, _⟩ := Prod.mk.inj (Option.some.inj hr)
  obtain ⟨rfl, hwidth⟩ := Glyph.ofScalars?_eq_some_iff.1 hg
  rw [hwidth]
  exact size_le_of_meaning? hmeaning

theorem size_scalars_pos (g : Glyph) : 0 < Utf8.size g.scalars :=
  Nat.lt_of_lt_of_le g.base.utf8Size_pos (Nat.le_add_right _ _)

variable {keep : EscapeSet}

theorem size_scalars_le_of_unkept? {cs rest : List Char} {g : Glyph}
    (h : unkept? keep cs = some (g, rest)) : Utf8.size g.scalars ≤ g.width := by
  unfold unkept? at h
  split at h
  · exact size_scalars_le_width (Option.filter_eq_some_iff.1 h).1
  · simp at h

end Widths

section DecodedBefore

variable {keep : EscapeSet}

/-- The bytes of what is decoded before byte `p` of a text. If `p` cuts a character, the bytes of
that before `p` count too. -/
def decodedBefore (keep : EscapeSet) (text : List Char) (p : Nat) : Nat :=
  Utf8.size (decode keep (Utf8.before text p)) + (p - Utf8.size (Utf8.before text p))

theorem decodedBefore_zero (text : List Char) : decodedBefore keep text 0 = 0 := by
  simp [decodedBefore, Utf8.before_zero]

theorem decodedBefore_size (text : List Char) :
    decodedBefore keep text (Utf8.size text) = Utf8.size (decode keep text) := by
  have hbefore := Utf8.before_append text []
  rw [List.append_nil] at hbefore
  rw [decodedBefore, hbefore, Nat.sub_self, Nat.add_zero]

theorem before_of_unkept? {cs rest : List Char} {g : Glyph} (h : unkept? keep cs = some (g, rest))
    (p : Nat) :
    Utf8.size (Utf8.before cs (g.width + p)) = g.width + Utf8.size (Utf8.before rest p) ∧
      decode keep (Utf8.before cs (g.width + p)) =
        g.scalars ++ decode keep (Utf8.before rest p) := by
  obtain ⟨tail, rfl, -, hsize, hread⟩ := exists_tail_of_unkept? h
  rw [← hsize, Utf8.before_append_add, Utf8.size_append]
  exact ⟨rfl, decode_of_unkept? (hread _)⟩

theorem decodedBefore_of_unkept? {cs rest : List Char} {g : Glyph}
    (h : unkept? keep cs = some (g, rest)) (p : Nat) :
    decodedBefore keep cs (g.width + p) = Utf8.size g.scalars + decodedBefore keep rest p := by
  obtain ⟨hsize, hdecode⟩ := before_of_unkept? h p
  rw [decodedBefore, hsize, hdecode, Utf8.size_append, decodedBefore]
  omega

theorem decodedBefore_of_lt {c : Char} {p : Nat} (h : p < c.utf8Size) (cs : List Char) :
    decodedBefore keep (c :: cs) p = p := by
  rw [decodedBefore, Utf8.before, if_pos h, decode_nil]
  exact Nat.zero_add p

theorem before_cons {c : Char} {cs : List Char} (h : unkept? keep (c :: cs) = none) (p : Nat) :
    Utf8.size (Utf8.before (c :: cs) (c.utf8Size + p)) =
        c.utf8Size + Utf8.size (Utf8.before cs p) ∧
      decode keep (Utf8.before (c :: cs) (c.utf8Size + p)) =
        c :: decode keep (Utf8.before cs p) := by
  have hbefore : Utf8.before (c :: cs) (c.utf8Size + p) = c :: Utf8.before cs p :=
    Utf8.before_append_add [c] cs p
  obtain ⟨rest, hrest⟩ := Utf8.exists_before_append cs p
  have hplain : unkept? keep (c :: Utf8.before cs p) = none := by
    apply unkept?_eq_none_of_append _ rest
    rwa [List.cons_append, ← hrest]
  rw [hbefore]
  exact ⟨rfl, decode_cons hplain⟩

theorem decodedBefore_cons {c : Char} {cs : List Char} (h : unkept? keep (c :: cs) = none)
    (p : Nat) :
    decodedBefore keep (c :: cs) (c.utf8Size + p) = c.utf8Size + decodedBefore keep cs p := by
  obtain ⟨hsize, hdecode⟩ := before_cons h p
  rw [decodedBefore, hsize, hdecode, Utf8.size_cons, decodedBefore]
  omega

end DecodedBefore

section Breakpoints

open Breakpoint

variable {keep : EscapeSet}

/-- The breakpoints before and after each reference, where the decoded text has `before` bytes so
far. -/
def breakpoints (before : Nat) : List Segment → OffsetMap
  | [] => []
  | .text chars :: rest => breakpoints (before + Utf8.size chars) rest
  | .reference span glyph :: rest =>
    let after := before + Utf8.size glyph.scalars
    ⟨span.start, before⟩ :: ⟨span.stop, after⟩ :: breakpoints after rest

theorem Decoded.appendSegments_eq {offset : Breakpoint} {d : Decoded} {segs : List Segment}
    {map : OffsetMap} (h : (breakpoints (Utf8.size d.text) segs).mapM offset.add? = some map) :
    d.appendSegments offset segs =
      (⟨d.text ++ segs.flatMap Segment.scalars, d.map ++ map⟩, none) := by
  induction segs generalizing d map with
  | nil =>
    obtain rfl := Option.some.inj h
    simp [Decoded.appendSegments]
  | cons s segs ih =>
    cases s with
    | text chars =>
      rw [breakpoints, ← Utf8.size_append] at h
      rw [Decoded.appendSegments, ih h]
      simp [Segment.scalars]
    | reference span g =>
      simp only [breakpoints, ← Utf8.size_append, List.mapM_cons, Option.bind_eq_bind,
        Option.bind_eq_some_iff, Option.pure_def, Option.some.injEq] at h
      obtain ⟨b, hb, _, ⟨b', hb', rest, hrest, rfl⟩, rfl⟩ := h
      have hnext := ih (d := ⟨d.text ++ g.scalars, d.map ++ [b, b']⟩) hrest
      simp only [Decoded.appendSegments, hb, hb', hnext]
      simp [Segment.scalars]

theorem breakpoints_of_unkept? {cs rest : List Char} {g : Glyph}
    (h : unkept? keep cs = some (g, rest)) (pos before : Nat) :
    breakpoints before (segmentsFrom keep pos cs) =
      ⟨pos, before⟩ :: ⟨pos + g.width, before + Utf8.size g.scalars⟩ ::
        breakpoints (before + Utf8.size g.scalars) (segmentsFrom keep (pos + g.width) rest) := by
  rw [segmentsFrom_of_unkept? h]
  rfl

theorem breakpoints_cons {c : Char} {cs : List Char} (h : unkept? keep (c :: cs) = none)
    (pos before : Nat) :
    breakpoints before (segmentsFrom keep pos (c :: cs)) =
      breakpoints (before + c.utf8Size) (segmentsFrom keep (pos + c.utf8Size) cs) := by
  rcases segmentsFrom_plain h pos with hown | ⟨run, rest, hrun, hmore⟩
  · rw [hown]
    rfl
  · rw [hrun, hmore, breakpoints, breakpoints, Utf8.size_cons, Nat.add_assoc]

theorem reference_mem_cons {c : Char} {cs : List Char} (h : unkept? keep (c :: cs) = none)
    (pos : Nat) {span : Span} {g : Glyph} :
    .reference span g ∈ segmentsFrom keep pos (c :: cs) ↔
      .reference span g ∈ segmentsFrom keep (pos + c.utf8Size) cs := by
  rcases segmentsFrom_plain h pos with hown | ⟨run, rest, hrun, hmore⟩
  · simp [hown]
  · simp [hrun, hmore]

/-- Breakpoints rise from where the text and its decoding have come, and nowhere is the decoding
longer. -/
theorem pairwise_breakpoints (cs : List Char) (pos before : Nat) :
    (⟨pos, before⟩ :: breakpoints before (segmentsFrom keep pos cs)).Pairwise Leads := by
  induction cs using unkept_induction keep generalizing pos before with
  | nil => simp [segmentsFrom_nil, breakpoints]
  | @reference cs rest g hfront ih =>
    have hpos := size_scalars_pos g
    have hle := size_scalars_le_of_unkept? hfront
    rw [breakpoints_of_unkept? hfront]
    apply OffsetMap.pairwise_leads_cons (Leads.refl _)
    apply OffsetMap.pairwise_leads_cons _ (ih (pos + g.width) (before + Utf8.size g.scalars))
    exact .inr ⟨by simp only; omega, by simp only; omega⟩
  | @plain c cs hfront ih =>
    have hpos := c.utf8Size_pos
    have hlead : Leads ⟨pos, before⟩ ⟨pos + c.utf8Size, before + c.utf8Size⟩ :=
      .inr ⟨by simp only; omega, by simp only; omega⟩
    rw [breakpoints_cons hfront]
    exact (OffsetMap.pairwise_leads_cons hlead (ih _ _)).sublist
      ((List.sublist_cons_self _ _).cons_cons _)

theorem leads_breakpoints (keep : EscapeSet) (cs : List Char) (pos before : Nat) :
    ∀ b ∈ breakpoints before (segmentsFrom keep pos cs), Leads ⟨pos, before⟩ b :=
  (List.pairwise_cons.1 (pairwise_breakpoints cs pos before)).1

theorem level_breakpoints (cs : List Char) (pos before : Nat) :
    ∀ b ∈ (breakpoints before (segmentsFrom keep pos cs)).head?,
      b.source + before = b.target + pos := by
  induction cs using unkept_induction keep generalizing pos before with
  | nil => simp [segmentsFrom_nil, breakpoints]
  | reference hfront ih =>
    rw [breakpoints_of_unkept? hfront]
    simp [Nat.add_comm]
  | plain hfront ih =>
    rw [breakpoints_cons hfront]
    intro b hb
    have := ih _ _ b hb
    omega

theorem condenses_breakpoints (text : List Char) :
    OffsetMap.Condenses (breakpoints 0 (segments keep text)) where
  pairwise := pairwise_breakpoints text 0 0
  level := level_breakpoints text 0 0

theorem together_start (keep : EscapeSet) (cs : List Char) (pos before : Nat) :
    OffsetMap.Together (⟨pos, before⟩ :: breakpoints before (segmentsFrom keep pos cs)) pos
      before := by
  apply OffsetMap.together_cons (a := ⟨pos, before⟩) (k := 0)
  intro b hb hlt
  rcases leads_breakpoints keep cs pos before b hb with rfl | hlead
  · exact absurd hlt (Nat.lt_irrefl _)
  · exact ⟨hlt, hlead.1⟩

/-- Where no reference is entered midway, the text and its decoding have come equally far past the
last breakpoint. -/
theorem together_decodedBefore {cs : List Char} (pos before : Nat) {p : Nat}
    (hp : p ≤ Utf8.size cs)
    (hout : ∀ span g, .reference span g ∈ segmentsFrom keep pos cs →
      ¬ (span.start < pos + p ∧ pos + p < span.stop)) :
    OffsetMap.Together (⟨pos, before⟩ :: breakpoints before (segmentsFrom keep pos cs)) (pos + p)
      (before + decodedBefore keep cs p) := by
  induction cs using unkept_induction keep generalizing pos before p with
  | nil =>
    obtain rfl : p = 0 := Nat.le_zero.1 hp
    rw [decodedBefore_zero]
    exact together_start keep [] pos before
  | @reference cs rest g hfront ih =>
    have hleads := leads_breakpoints keep cs pos before
    rcases Nat.eq_zero_or_pos p with rfl | hpos
    · rw [decodedBefore_zero]
      exact together_start keep cs pos before
    · rw [segmentsFrom_of_unkept? hfront] at hout
      -- As `p` does not stand inside the reference, it stands after it.
      have hwidth : g.width ≤ p := by
        have hnot := hout ⟨pos, pos + g.width⟩ g List.mem_cons_self
        simp only at hnot
        omega
      obtain ⟨q, rfl⟩ := Nat.exists_eq_add_of_le hwidth
      rw [size_of_unkept? hfront] at hp
      have hrest := ih (pos + g.width) (before + Utf8.size g.scalars) (p := q) (by omega) ?_
      · rw [Nat.add_assoc, Nat.add_assoc, ← decodedBefore_of_unkept? hfront] at hrest
        rw [breakpoints_of_unkept? hfront] at hleads ⊢
        rw [List.forall_mem_cons] at hleads
        exact (hrest.cons hleads.2).cons (List.forall_mem_cons.2 hleads)
      · intro span g' hmem
        rw [Nat.add_assoc]
        exact hout span g' (List.mem_cons_of_mem _ hmem)
  | @plain c cs hfront ih =>
    have hleads := leads_breakpoints keep cs (pos + c.utf8Size) (before + c.utf8Size)
    rw [breakpoints_cons hfront]
    by_cases hcut : p < c.utf8Size
    · -- Within the character the next breakpoint is not reached yet.
      rw [decodedBefore_of_lt hcut]
      apply OffsetMap.together_cons
      intro b hb hlt
      rcases hleads b hb with rfl | hlead
      · simp only
        omega
      · simp only at hlead ⊢
        omega
    · obtain ⟨q, rfl⟩ := Nat.exists_eq_add_of_le (Nat.le_of_not_lt hcut)
      rw [Utf8.size_cons] at hp
      have hrest := ih (pos + c.utf8Size) (before + c.utf8Size) (p := q) (by omega) ?_
      · rw [Nat.add_assoc, Nat.add_assoc, ← decodedBefore_cons hfront] at hrest
        exact hrest.shift rfl rfl hleads
      · intro span g hmem
        rw [Nat.add_assoc]
        exact hout span g ((reference_mem_cons hfront pos).2 hmem)

theorem source_le_of_mem {cs : List Char} {pos before : Nat} {b : Breakpoint}
    (hb : b ∈ breakpoints before (segmentsFrom keep pos cs)) : b.source ≤ pos + Utf8.size cs := by
  induction cs using unkept_induction keep generalizing pos before with
  | nil => simp [segmentsFrom_nil, breakpoints] at hb
  | reference hfront ih =>
    rw [breakpoints_of_unkept? hfront, List.mem_cons, List.mem_cons] at hb
    rw [size_of_unkept? hfront]
    rcases hb with rfl | rfl | hb
    · exact Nat.le_add_right _ _
    · simp only
      omega
    · have := ih hb
      omega
  | plain hfront ih =>
    rw [breakpoints_cons hfront] at hb
    have := ih hb
    rw [Utf8.size_cons]
    omega

theorem exists_breakpoints_of_mem {cs : List Char} {pos : Nat} (before : Nat) {span : Span}
    {g : Glyph} (h : .reference span g ∈ segmentsFrom keep pos cs) :
    ∃ u, ⟨span.start, u⟩ ∈ breakpoints before (segmentsFrom keep pos cs) ∧
      ⟨span.stop, u + Utf8.size g.scalars⟩ ∈ breakpoints before (segmentsFrom keep pos cs) ∧
      ∀ c ∈ breakpoints before (segmentsFrom keep pos cs),
        c.source ≤ span.start ∨ span.stop ≤ c.source := by
  induction cs using unkept_induction keep generalizing pos before with
  | nil => simp [segmentsFrom_nil] at h
  | @reference cs rest g' hfront ih =>
    have hleads := leads_breakpoints keep rest (pos + g'.width) (before + Utf8.size g'.scalars)
    have hafter : ∀ c ∈ breakpoints (before + Utf8.size g'.scalars)
        (segmentsFrom keep (pos + g'.width) rest), pos + g'.width ≤ c.source := by
      intro c hc
      rcases hleads c hc with rfl | hlead
      · exact Nat.le_refl _
      · simp only at hlead
        omega
    rw [segmentsFrom_of_unkept? hfront, List.mem_cons] at h
    rw [breakpoints_of_unkept? hfront]
    rcases h with heq | h
    · obtain ⟨rfl, rfl⟩ := Segment.reference.inj heq
      refine ⟨before, List.mem_cons_self, List.mem_cons_of_mem _ List.mem_cons_self, ?_⟩
      simp only [List.forall_mem_cons, Nat.le_refl, true_or, or_true, true_and]
      exact fun c hc => .inr (hafter c hc)
    · obtain ⟨u, hstart, hstop, hnone⟩ := ih _ h
      have hpos := hafter _ hstart
      refine ⟨u, List.mem_cons_of_mem _ (List.mem_cons_of_mem _ hstart),
        List.mem_cons_of_mem _ (List.mem_cons_of_mem _ hstop), ?_⟩
      simp only [List.forall_mem_cons] at hpos ⊢
      exact ⟨.inl (by omega), .inl hpos, hnone⟩
  | plain hfront ih =>
    rw [breakpoints_cons hfront]
    exact ih _ ((reference_mem_cons hfront pos).1 h)

end Breakpoints

section Translation

open OffsetMap Breakpoint

variable {keep : EscapeSet} {text : List Char}

theorem Decoded.append_eq (hsize : Utf8.size text ≤ maxOffset) :
    Decoded.empty.append keep (.identity 0) text =
      (⟨decode keep text, breakpoints 0 (segments keep text)⟩, none) := by
  have hbounds : ∀ b ∈ breakpoints 0 (segments keep text),
      b.source ≤ maxOffset ∧ b.target ≤ maxOffset := by
    intro b hb
    have hsource := source_le_of_mem hb
    have htarget := (condenses_breakpoints text).target_le (List.mem_cons_of_mem _ hb)
    omega
  exact Decoded.appendSegments_eq (mapM_add?_zero hbounds)

/-- Offset `p` lies within a reference, neither at its `&` nor after its `;`. -/
def IsInside (keep : EscapeSet) (text : List Char) (p : Nat) : Prop :=
  ∃ span g, .reference span g ∈ segments keep text ∧ span.start < p ∧ p < span.stop

/-- A decoded text with a map that takes its offsets back and forth. -/
structure Decoded.Tracks (d : Decoded) (keep : EscapeSet) (text : List Char) : Prop where
  text_eq : d.text = decode keep text
  toSource_lt : ∀ y z, y < z → z ≤ Utf8.size d.text → d.map.toSource y < d.map.toSource z
  toSource_le : ∀ y ≤ Utf8.size d.text, d.map.toSource y ≤ Utf8.size text
  toSource_size : d.map.toSource (Utf8.size d.text) = Utf8.size text
  toTarget_toSource : ∀ y ≤ Utf8.size d.text, d.map.toTarget (d.map.toSource y) = y
  toTarget_eq : ∀ p ≤ Utf8.size text, ¬ IsInside keep text p →
    d.map.toTarget p = decodedBefore keep text p
  toSource_eq : ∀ p ≤ Utf8.size text, ¬ IsInside keep text p →
    d.map.toSource (decodedBefore keep text p) = p
  /-- Bisection of the map finds these offsets, whichever of equal breakpoints it comes upon. -/
  bisects_iff : ∀ x y, d.map.Bisects x y ↔ y = d.map.toTarget x
  swap_bisects_iff : ∀ y x, d.map.swap.Bisects y x ↔ x = d.map.toSource y

theorem together_of_not_isInside {p : Nat} (hp : p ≤ Utf8.size text)
    (hout : ¬ IsInside keep text p) :
    Together (origin :: breakpoints 0 (segments keep text)) p (decodedBefore keep text p) := by
  have hspans : ∀ span g, .reference span g ∈ segmentsFrom keep 0 text →
      ¬ (span.start < 0 + p ∧ 0 + p < span.stop) := by
    intro span g hmem hinside
    rw [Nat.zero_add] at hinside
    exact hout ⟨span, g, hmem, hinside⟩
  have htogether := together_decodedBefore 0 0 hp hspans
  rwa [Nat.zero_add, Nat.zero_add] at htogether

theorem stop_le_size {span : Span} {g : Glyph} (h : .reference span g ∈ segments keep text) :
    span.stop ≤ Utf8.size text := by
  obtain ⟨u, _, hstop, _⟩ := exists_breakpoints_of_mem 0 h
  have hsource := source_le_of_mem hstop
  rwa [Nat.zero_add] at hsource

theorem together_size (keep : EscapeSet) (text : List Char) :
    Together (origin :: breakpoints 0 (segments keep text)) (Utf8.size text)
      (Utf8.size (decode keep text)) := by
  rw [← decodedBefore_size]
  apply together_of_not_isInside (Nat.le_refl _)
  rintro ⟨span, g, hmem, _, hlt⟩
  have := stop_le_size hmem
  omega

/-- Decoding a text gives a map by which the decoded text and the source are found from each other.
Every text in memory is short enough for offsets to reach its end. -/
theorem decoded_tracks (keep : EscapeSet) {text : List Char} (hsize : Utf8.size text ≤ maxOffset) :
    ∃ d, Decoded.empty.append keep (.identity 0) text = (d, none) ∧ d.Tracks keep text := by
  have hcondenses : Condenses (breakpoints 0 (segments keep text)) := condenses_breakpoints text
  have hrises := hcondenses.rises
  have hend := together_size keep text
  have hshort := hcondenses.le_of_together hend
  have htogether : ∀ y ≤ Utf8.size (decode keep text), ∃ x ≤ Utf8.size text,
      Together (origin :: breakpoints 0 (segments keep text)) x y := by
    intro y hy
    obtain ⟨x, hxy⟩ := hcondenses.exists_together y
    exact ⟨x, hxy.le hrises hend hy, hxy⟩
  refine ⟨_, Decoded.append_eq hsize, rfl, ?_, ?_, ?_, ?_, ?_, ?_, ?_, ?_⟩
  · intro y z hyz hz
    obtain ⟨x, hx, hxy⟩ := htogether y (by simp only at hz; omega)
    obtain ⟨w, hw, hwz⟩ := htogether z hz
    rw [hxy.toSource hrises (by omega), hwz.toSource hrises (by omega)]
    exact hxy.lt hrises hwz hyz
  · intro y hy
    obtain ⟨x, hx, hxy⟩ := htogether y hy
    rwa [hxy.toSource hrises (by omega)]
  · exact hend.toSource hrises hsize
  · intro y hy
    obtain ⟨x, hx, hxy⟩ := htogether y hy
    rw [hxy.toSource hrises (by omega)]
    exact hxy.toTarget hrises (by simp only at hy; omega)
  · intro p hp hout
    have hpq := together_of_not_isInside hp hout
    have := hcondenses.le_of_together hpq
    exact hpq.toTarget hrises (by omega)
  · intro p hp hout
    exact (together_of_not_isInside hp hout).toSource hrises (by omega)
  · exact fun x y => hrises.bisects_iff
  · exact fun y x => hrises.swap.bisects_iff

/-- Two references that touch share a breakpoint, and a character is before and after each. -/
theorem decoded_tracks_touching :
    Utf8.size ['é', '&', 'l', 't', ';', '&', '#', '2', '3', '1', ';', 'b'] ≤ maxOffset ∧
      Decoded.Tracks ⟨['é', '<', 'ç', 'b'], [⟨2, 2⟩, ⟨6, 3⟩, ⟨6, 3⟩, ⟨12, 5⟩]⟩ .none
        ['é', '&', 'l', 't', ';', '&', '#', '2', '3', '1', ';', 'b'] := by
  have hsize : Utf8.size ['é', '&', 'l', 't', ';', '&', '#', '2', '3', '1', ';', 'b'] ≤
      maxOffset := by decide
  obtain ⟨d, hd, htracks⟩ := decoded_tracks .none hsize
  have hdecoded : Decoded.empty.append .none (.identity 0)
      ['é', '&', 'l', 't', ';', '&', '#', '2', '3', '1', ';', 'b'] =
        (⟨['é', '<', 'ç', 'b'], [⟨2, 2⟩, ⟨6, 3⟩, ⟨6, 3⟩, ⟨12, 5⟩]⟩, none) := by decide +kernel
  rw [hdecoded] at hd
  obtain ⟨rfl, _⟩ := Prod.mk.inj hd
  exact ⟨hsize, htracks⟩

/-- Offset `p` lies in a reference, farther past its `&` than its decoding is long. -/
def Overruns (keep : EscapeSet) (text : List Char) (p : Nat) : Prop :=
  ∃ span g, .reference span g ∈ segments keep text ∧ span.start + Utf8.size g.scalars < p ∧
    p < span.stop

theorem exists_isLast_of_mem {span : Span} {g : Glyph}
    (h : .reference span g ∈ segments keep text) :
    ∃ u, ⟨span.stop, u + Utf8.size g.scalars⟩ ∈ breakpoints 0 (segments keep text) ∧
      (∀ c ∈ origin :: breakpoints 0 (segments keep text), span.start < c.source →
        span.stop ≤ c.source) ∧
      ∀ p, span.start ≤ p → p < span.stop →
        IsLast (origin :: breakpoints 0 (segments keep text)) p ⟨span.start, u⟩ := by
  obtain ⟨u, hstart, hstop, hnone⟩ := exists_breakpoints_of_mem 0 h
  have hnext : ∀ c ∈ origin :: breakpoints 0 (segments keep text), span.start < c.source →
      span.stop ≤ c.source := by
    rw [List.forall_mem_cons]
    refine ⟨fun hlt => absurd hlt (Nat.not_lt_zero _), ?_⟩
    intro c hc hlt
    exact (hnone c hc).resolve_left (Nat.not_le_of_lt hlt)
  refine ⟨u, hstop, hnext, ?_⟩
  intro p hle hlt
  refine ⟨List.mem_cons_of_mem _ hstart, hle, ?_⟩
  intro c hc hcs
  exact Nat.lt_of_lt_of_le hlt (hnext c hc hcs)

theorem toTarget_le_of_not_overruns (hsize : Utf8.size text ≤ maxOffset) {x z : Nat}
    (hx : ¬ Overruns keep text x) (hxz : x ≤ z) (hz : z ≤ Utf8.size text) :
    toTarget (breakpoints 0 (segments keep text)) x ≤
      toTarget (breakpoints 0 (segments keep text)) z := by
  have hcondenses : Condenses (breakpoints 0 (segments keep text)) := condenses_breakpoints text
  by_cases hinside : IsInside keep text x
  · obtain ⟨span, g, hmem, hlt, hlt'⟩ := hinside
    obtain ⟨u, hstop, hnext, hlast⟩ := exists_isLast_of_mem hmem
    have hshort : x ≤ span.start + Utf8.size g.scalars :=
      Nat.le_of_not_lt fun hlong => hx ⟨span, g, hmem, hlong, hlt'⟩
    rw [hcondenses.toTarget_eq (hlast x (by omega) hlt') (by omega)]
    apply hcondenses.le_toTarget (hlast x (by omega) hlt') _ hxz (by omega)
    intro c hc hcs
    have := hcondenses.target_le_target (List.mem_cons_of_mem _ hstop) hc (hnext c hc hcs)
    simp only at this ⊢
    omega
  · have hxy := together_of_not_isInside (by omega) hinside
    have hle := hcondenses.le_of_together hxy
    rw [hxy.toTarget hcondenses.rises (by omega)]
    obtain ⟨b, hb, k, hbx, hby, hnext⟩ := hxy
    have hlast : IsLast (origin :: breakpoints 0 (segments keep text)) x b :=
      ⟨hb, by omega, fun c hc hcs => (hnext c hc hcs).1⟩
    have hk : b.target + (x - b.source) = decodedBefore keep text x := by omega
    rw [← hk]
    apply hcondenses.le_toTarget hlast _ hxz (by omega)
    intro c hc hcs
    have := (hnext c hc hcs).2
    omega

/-- The translation into a decoded text is monotone, and stays within it, from all offsets but those
in a reference that are farther past its `&` than its decoding is long. It runs on there byte by
byte as elsewhere, so that it comes past where the reference ends. -/
theorem toTarget_mono_iff (keep : EscapeSet) {text : List Char}
    (hsize : Utf8.size text ≤ maxOffset) :
    ∃ d, Decoded.empty.append keep (.identity 0) text = (d, none) ∧
      ∀ x ≤ Utf8.size text,
        ((∀ z, x ≤ z → z ≤ Utf8.size text → d.map.toTarget x ≤ d.map.toTarget z) ↔
          ¬ Overruns keep text x) ∧
        (¬ Overruns keep text x → d.map.toTarget x ≤ Utf8.size d.text) ∧
        ∀ span g, .reference span g ∈ segments keep text → span.start ≤ x → x < span.stop →
          d.map.toTarget x = d.map.toTarget span.start + (x - span.start) := by
  have hcondenses : Condenses (breakpoints 0 (segments keep text)) := condenses_breakpoints text
  have hend := together_size keep text
  have hshort := hcondenses.le_of_together hend
  refine ⟨_, Decoded.append_eq hsize, ?_⟩
  intro x hx
  refine ⟨⟨?_, ?_⟩, ?_, ?_⟩
  · rintro hmono ⟨span, g, hmem, hlong, hlt⟩
    obtain ⟨u, hstop, _, hlast⟩ := exists_isLast_of_mem hmem
    have hle := hmono span.stop (Nat.le_of_lt hlt) (stop_le_size hmem)
    have hstopTarget := hcondenses.rises.toTarget_of_mem hstop
    rw [hcondenses.toTarget_eq (hlast x (by omega) hlt) (by omega), hstopTarget] at hle
    simp only at hle
    omega
  · intro hnot z hxz hz
    exact toTarget_le_of_not_overruns hsize hnot hxz hz
  · intro hnot
    have hle := toTarget_le_of_not_overruns hsize hnot hx (Nat.le_refl _)
    rwa [hend.toTarget hcondenses.rises (by omega)] at hle
  · intro span g hmem hle hlt
    obtain ⟨u, _, _, hlast⟩ := exists_isLast_of_mem hmem
    rw [hcondenses.toTarget_eq (hlast x hle hlt) (by omega),
      hcondenses.toTarget_eq (hlast span.start (Nat.le_refl _) (by omega)) (by omega)]
    simp only
    omega

/-- From the first byte of a reference to `&` the translation is monotone: it is `2` there, as at
the end of the reference. -/
theorem toTarget_mono_in_amp :
    Utf8.size ['a', '&', 'a', 'm', 'p', ';', 'b'] ≤ maxOffset ∧
      ∀ z, 2 ≤ z → z ≤ 7 → 2 ≤ toTarget [⟨1, 1⟩, ⟨6, 2⟩] z := by
  have hsize : Utf8.size ['a', '&', 'a', 'm', 'p', ';', 'b'] ≤ maxOffset := by decide
  obtain ⟨d, hd, htranslation⟩ := toTarget_mono_iff .none hsize
  have hdecoded : Decoded.empty.append .none (.identity 0) ['a', '&', 'a', 'm', 'p', ';', 'b'] =
      (⟨['a', '&', 'b'], [⟨1, 1⟩, ⟨6, 2⟩]⟩, none) := by decide +kernel
  rw [hdecoded] at hd
  obtain ⟨rfl, _⟩ := Prod.mk.inj hd
  have hsegments : segments .none ['a', '&', 'a', 'm', 'p', ';', 'b'] =
      [.text ['a'], .reference ⟨1, 6⟩ ⟨'&', none, 5⟩, .text ['b']] := by decide +kernel
  have hnot : ¬ Overruns .none ['a', '&', 'a', 'm', 'p', ';', 'b'] 2 := by
    rintro ⟨span, g, hmem, hlong, _⟩
    rw [hsegments] at hmem
    simp at hmem
    obtain ⟨rfl, rfl⟩ := hmem
    exact absurd hlong (by decide)
  refine ⟨hsize, ?_⟩
  intro z hz hz7
  exact ((htranslation 2 (by decide)).1.2 hnot) z hz hz7

/-- Four bytes into a reference to `&` the translation is past the end of the decoded text, and
comes back to `2` at the end of the reference. -/
theorem toTarget_leaves_text :
    ∃ d, Decoded.empty.append .none (.identity 0) ['a', '&', 'a', 'm', 'p', ';', 'b'] = (d, none) ∧
      6 ≤ Utf8.size ['a', '&', 'a', 'm', 'p', ';', 'b'] ∧
      ¬ d.map.toTarget 5 ≤ d.map.toTarget 6 ∧ ¬ d.map.toTarget 5 ≤ Utf8.size d.text := by
  refine ⟨⟨['a', '&', 'b'], [⟨1, 1⟩, ⟨6, 2⟩]⟩, by decide +kernel, by decide, by decide, by decide⟩

end Translation

end Recognition.Sgml
