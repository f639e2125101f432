import Mathlib.Data.List.Basic
import Recognition.Proofs.Sgml.Offsets

namespace Recognition.Sgml

variable {keep : EscapeSet}

section References

theorem eq_nil_or_exists_of_append {tail after as cs rest : List Char} {g : Glyph}
    (hamp : '&' ∉ tail) (hcs : unkept? keep cs = some (g, rest))
    (h : '&' :: tail ++ after = as ++ cs) :
    as = [] ∨ ∃ bs, as = '&' :: tail ++ bs ∧ after = bs ++ cs := by
  -- A reference has no `&` inside, so another begins where it does or after it.
  rcases List.append_eq_append_iff.1 h with hlater | ⟨bs, htail, hbs⟩
  · exact .inr hlater
  · cases as with
    | nil => exact .inl rfl
    | cons a as =>
      cases bs with
      | nil => exact .inr ⟨[], by simpa using htail.symm, hbs.symm⟩
      | cons b bs =>
        -- The second reference would begin within the first.
        obtain ⟨tail', hcs', -⟩ := exists_tail_of_unkept? hcs
        obtain ⟨rfl, _⟩ := List.cons.inj (hbs.symm.trans hcs')
        rw [(List.cons.inj htail).2] at hamp
        simp at hamp

/-- The references that are replaced are those that can be read at some place of the text. None is
passed over for another, as no reference has an `&` inside. -/
theorem reference_mem_iff {pos : Nat} {text : List Char} {span : Span} {g : Glyph} :
    .reference span g ∈ segmentsFrom keep pos text ↔
      ∃ as cs rest, text = as ++ cs ∧ unkept? keep cs = some (g, rest) ∧
        span = ⟨pos + Utf8.size as, pos + Utf8.size as + g.width⟩ := by
  induction text using unkept_induction keep generalizing pos with
  | nil => simp [segmentsFrom_nil, unkept?]
  | @reference text after g' hfront ih =>
    obtain ⟨tail, rfl, hends, hwidth, _⟩ := exists_tail_of_unkept? hfront
    -- No further reference begins within this one.
    have hamp : '&' ∉ tail := fun hmem => absurd (hends _ hmem) (by decide)
    rw [segmentsFrom_of_unkept? hfront, List.mem_cons, Segment.reference.injEq, ih]
    constructor
    · rintro (⟨rfl, rfl⟩ | ⟨as, cs, rest, rfl, hcs, rfl⟩)
      · exact ⟨[], _, after, rfl, hfront, rfl⟩
      · refine ⟨'&' :: tail ++ as, cs, rest, by simp, hcs, ?_⟩
        rw [Utf8.size_append, hwidth, Nat.add_assoc pos]
    · rintro ⟨as, cs, rest, htext, hcs, rfl⟩
      rcases eq_nil_or_exists_of_append hamp hcs htext with rfl | ⟨bs, rfl, rfl⟩
      · rw [htext, List.nil_append, hcs] at hfront
        obtain ⟨rfl, _⟩ := Prod.mk.inj (Option.some.inj hfront)
        exact .inl ⟨rfl, rfl⟩
      · refine .inr ⟨bs, cs, rest, rfl, hcs, ?_⟩
        rw [Utf8.size_append, hwidth, ← Nat.add_assoc pos]
  | @plain c cs hfront ih =>
    rw [reference_mem_cons hfront, ih]
    constructor
    · rintro ⟨as, ds, rest, rfl, hds, rfl⟩
      exact ⟨c :: as, ds, rest, rfl, hds, by rw [Utf8.size_cons, ← Nat.add_assoc pos]⟩
    · rintro ⟨as, ds, rest, htext, hds, rfl⟩
      cases as with
      | nil =>
        rw [List.nil_append] at htext
        rw [htext, hds] at hfront
        simp at hfront
      | cons a as =>
        obtain ⟨rfl, hcs⟩ := List.cons.inj htext
        exact ⟨as, ds, rest, hcs, hds, by rw [Utf8.size_cons, ← Nat.add_assoc pos]⟩

theorem IsInside.known {text : List Char} {p : Nat} (h : IsInside keep text p) :
    IsInside .none text p := by
  obtain ⟨span, g, hmem, hp⟩ := h
  obtain ⟨as, cs, rest, htext, hcs, hspan⟩ := reference_mem_iff.1 hmem
  refine ⟨span, g, reference_mem_iff.2 ⟨as, cs, rest, htext, ?_, hspan⟩, hp⟩
  obtain ⟨tail, rfl, -⟩ := exists_tail_of_unkept? hcs
  rw [List.cons_append, unkept?_none]
  exact (Option.filter_eq_some_iff.1 hcs).1

end References

section Cuts

/-- No reference of `s ++ t` that is replaced begins in `s` and ends in `t`. -/
def CutsBetween (keep : EscapeSet) (s t : List Char) : Prop :=
  ∀ as cs g rest, s = as ++ cs → cs ≠ [] → unkept? keep (cs ++ t) = some (g, rest) →
    g.width ≤ Utf8.size cs

theorem cutsBetween_of_not_isInside {s t : List Char}
    (h : ¬ IsInside keep (s ++ t) (Utf8.size s)) : CutsBetween keep s t := by
  rintro as cs g rest rfl hne hcs
  have hpos := size_pos_of_ne_nil hne
  refine Nat.le_of_not_lt fun hlong => h ?_
  refine ⟨⟨0 + Utf8.size as, 0 + Utf8.size as + g.width⟩, g, ?_, ?_, ?_⟩
  · exact reference_mem_iff.2 ⟨as, cs ++ t, rest, by simp, hcs, rfl⟩
  · rw [Utf8.size_append]
    simp only
    omega
  · rw [Utf8.size_append]
    simp only
    omega

/-- `s` is read in front of `t` as it is alone. -/
inductive ReadsAlone (keep : EscapeSet) (t : List Char) : (s : List Char) → Prop
  | nil : ReadsAlone keep t []
  | reference {s after : List Char} {g : Glyph} (halone : unkept? keep s = some (g, after))
    (hfront : unkept? keep (s ++ t) = some (g, after ++ t)) (hafter : ReadsAlone keep t after) :
    ReadsAlone keep t s
  | plain {c : Char} {s : List Char} (halone : unkept? keep (c :: s) = none)
    (hfront : unkept? keep (c :: (s ++ t)) = none) (hafter : ReadsAlone keep t s) :
    ReadsAlone keep t (c :: s)

theorem CutsBetween.readsAlone {s t : List Char} (h : CutsBetween keep s t) :
    ReadsAlone keep t s := by
  induction hn : s.length using Nat.strongRecOn generalizing s with
  | ind n ih =>
    cases s with
    | nil => exact .nil
    | cons c s =>
      cases hfront : unkept? keep (c :: s ++ t) with
      | none =>
        refine .plain (unkept?_eq_none_of_append (c :: s) t hfront) hfront (ih s.length ?_ ?_ rfl)
        · rw [← hn]
          exact Nat.lt_succ_self _
        · intro as cs g rest hs
          exact h (c :: as) cs g rest (congrArg (c :: ·) hs)
      | some r =>
        obtain ⟨g, rest⟩ := r
        have hshort := h [] (c :: s) g rest rfl (by simp) hfront
        obtain ⟨after, halone, rfl⟩ := exists_of_unkept?_append hfront hshort
        obtain ⟨tail, hs, -⟩ := exists_tail_of_unkept? halone
        refine .reference halone hfront (ih after.length (hn ▸ length_unkept?_lt halone) ?_ rfl)
        intro as cs g' rest' hafter
        apply h ('&' :: tail ++ as) cs g' rest'
        rw [hs, hafter, List.append_assoc]

variable {s t : List Char}

theorem ReadsAlone.decode_append (h : ReadsAlone keep t s) :
    decode keep (s ++ t) = decode keep s ++ decode keep t := by
  induction h with
  | nil => simp
  | reference hs hst _ ih =>
    rw [decode_of_unkept? hst, ih, decode_of_unkept? hs, List.append_assoc]
  | plain hs hst _ ih =>
    rw [List.cons_append, decode_cons hst, ih, decode_cons hs, List.cons_append]

theorem ReadsAlone.breakpoints_append (h : ReadsAlone keep t s) (pos before : Nat) :
    breakpoints before (segmentsFrom keep pos (s ++ t)) =
      breakpoints before (segmentsFrom keep pos s) ++
        breakpoints (before + Utf8.size (decode keep s))
          (segmentsFrom keep (pos + Utf8.size s) t) := by
  induction h generalizing pos before with
  | nil => simp [segmentsFrom_nil, breakpoints]
  | reference hs hst _ ih =>
    rw [breakpoints_of_unkept? hst, ih, breakpoints_of_unkept? hs, decode_of_unkept? hs,
      size_of_unkept? hs, Utf8.size_append, Nat.add_assoc, Nat.add_assoc]
    rfl
  | plain hs hst _ ih =>
    rw [List.cons_append, breakpoints_cons hst, ih, breakpoints_cons hs, decode_cons hs,
      Utf8.size_cons, Utf8.size_cons, Nat.add_assoc, Nat.add_assoc]

end Cuts

section Moves

def moved (k : Nat) (b : Breakpoint) : Breakpoint := ⟨k + b.source, b.target⟩

theorem add?_eq_moved (k : Nat) (b : Breakpoint) :
    Breakpoint.add? ⟨k, 0⟩ b = (Breakpoint.identity 0).add? (moved k b) := by
  simp [Breakpoint.add?, Breakpoint.identity, moved]

theorem breakpoints_moved (k : Nat) (cs : List Char) (pos before : Nat) :
    (breakpoints before (segmentsFrom keep pos cs)).map (moved k) =
      breakpoints before (segmentsFrom keep (k + pos) cs) := by
  induction cs using unkept_induction keep generalizing pos before with
  | nil => simp [segmentsFrom_nil, breakpoints]
  | reference hfront ih =>
    rw [breakpoints_of_unkept? hfront, breakpoints_of_unkept? hfront, List.map_cons, List.map_cons,
      ih, moved, moved, ← Nat.add_assoc]
  | plain hfront ih => rw [breakpoints_cons hfront, breakpoints_cons hfront, ih, ← Nat.add_assoc]

theorem mapM_add?_breakpoints (k : Nat) (cs : List Char) (before : Nat) :
    (breakpoints before (segments keep cs)).mapM (Breakpoint.add? ⟨k, 0⟩) =
      (breakpoints before (segmentsFrom keep k cs)).mapM (Breakpoint.identity 0).add? := by
  have hadd : Breakpoint.add? ⟨k, 0⟩ = (Breakpoint.identity 0).add? ∘ moved k :=
    funext (add?_eq_moved k)
  rw [hadd, ← List.mapM_map, segments, breakpoints_moved, Nat.add_zero]

end Moves

section Appended

open Breakpoint

theorem Decoded.exists_mapM_add? {offset : Breakpoint} {d d' : Decoded} {segs : List Segment}
    (h : d.appendSegments offset segs = (d', none)) :
    ∃ map, (breakpoints (Utf8.size d.text) segs).mapM offset.add? = some map := by
  induction segs generalizing d with
  | nil => exact ⟨[], rfl⟩
  | cons s segs ih =>
    cases s with
    | text chars =>
      rw [breakpoints, ← Utf8.size_append]
      exact ih h
    | reference span g =>
      simp only [appendSegments] at h
      split at h
      · simp at h
      · rename_i b hb
        split at h
        · simp at h
        · rename_i b' hb'
          obtain ⟨map, hmap⟩ := ih h
          exact ⟨b :: b' :: map, by simp_all [breakpoints, Utf8.size_append]⟩

theorem Decoded.append_eq_iff {k : Nat} {d d' : Decoded} {text : List Char} :
    d.append keep ⟨k, 0⟩ text = (d', none) ↔
      (∀ b ∈ breakpoints (Utf8.size d.text) (segmentsFrom keep k text),
        b.source ≤ maxOffset ∧ b.target ≤ maxOffset) ∧
        d' = ⟨d.text ++ decode keep text,
          d.map ++ breakpoints (Utf8.size d.text) (segmentsFrom keep k text)⟩ := by
  constructor
  · intro h
    obtain ⟨map, hmap⟩ := exists_mapM_add? h
    rw [append, appendSegments_eq hmap] at h
    rw [mapM_add?_breakpoints, OffsetMap.mapM_add?_zero_eq_some] at hmap
    obtain ⟨rfl, hle⟩ := hmap
    exact ⟨hle, (Prod.mk.inj h).1.symm⟩
  · rintro ⟨hle, rfl⟩
    apply appendSegments_eq
    rw [mapM_add?_breakpoints, OffsetMap.mapM_add?_zero_eq_some]
    exact ⟨rfl, hle⟩

/-- Two chunks are added as the text they make up. -/
theorem ReadsAlone.append_iff {s t : List Char} (h : ReadsAlone keep t s) {d d₂ : Decoded} :
    d.append keep (.identity 0) (s ++ t) = (d₂, none) ↔
      ∃ d₁, d.append keep (.identity 0) s = (d₁, none) ∧
        d₁.append keep ⟨Utf8.size s, 0⟩ t = (d₂, none) := by
  have happend := h.breakpoints_append 0 (Utf8.size d.text)
  rw [Nat.zero_add] at happend
  simp only [identity, Decoded.append_eq_iff, happend, h.decode_append, List.forall_mem_append]
  constructor
  · rintro ⟨⟨hs, ht⟩, rfl⟩
    refine ⟨_, ⟨hs, rfl⟩, ?_, ?_⟩
    · simpa only [Utf8.size_append] using ht
    · simp only [Utf8.size_append, List.append_assoc]
  · rintro ⟨_, ⟨hs, rfl⟩, ht, rfl⟩
    simp only [Utf8.size_append] at ht
    refine ⟨⟨hs, ht⟩, ?_⟩
    simp only [Utf8.size_append, List.append_assoc]

/-- The breakpoints of a piece of `text`, which begins at byte `pos` and where the decoded text has
`before` bytes. -/
def Segment.breakpoints (keep : EscapeSet) (text : List Char) (pos before : Nat) :
    Segment → OffsetMap
  | .text _ => []
  | .reference span _ =>
    [⟨span.start, before + decodedBefore keep text (span.start - pos)⟩,
      ⟨span.stop, before + decodedBefore keep text (span.stop - pos)⟩]

theorem flatMap_breakpoints_eq {cs rest : List Char} {pos before n m : Nat}
    (h : ∀ p, decodedBefore keep cs (n + p) = m + decodedBefore keep rest p) :
    (segmentsFrom keep (pos + n) rest).flatMap (Segment.breakpoints keep cs pos before) =
      (segmentsFrom keep (pos + n) rest).flatMap
        (Segment.breakpoints keep rest (pos + n) (before + m)) := by
  apply List.flatMap_congr
  intro s hs
  cases s with
  | text chars => rfl
  | reference span g =>
    obtain ⟨as, _, _, _, _, rfl⟩ := reference_mem_iff.1 hs
    have hshift (p : Nat) : before + decodedBefore keep cs (pos + n + p - pos) =
        before + m + decodedBefore keep rest (pos + n + p - (pos + n)) := by
      rw [Nat.add_assoc pos, Nat.add_sub_cancel_left, h, ← Nat.add_assoc pos,
        Nat.add_sub_cancel_left, Nat.add_assoc]
    simp only [Segment.breakpoints, hshift, Nat.add_assoc (pos + n)]

theorem breakpoints_eq_flatMap (cs : List Char) (pos before : Nat) :
    breakpoints before (segmentsFrom keep pos cs) =
      (segmentsFrom keep pos cs).flatMap (Segment.breakpoints keep cs pos before) := by
  induction cs using unkept_induction keep generalizing pos before with
  | nil => simp [segmentsFrom_nil, breakpoints]
  | @reference cs rest g hfront ih =>
    have hstop := decodedBefore_of_unkept? hfront 0
    rw [decodedBefore_zero, Nat.add_zero, Nat.add_zero] at hstop
    rw [breakpoints_of_unkept? hfront, ih, segmentsFrom_of_unkept? hfront, List.flatMap_cons,
      flatMap_breakpoints_eq (decodedBefore_of_unkept? hfront), Segment.breakpoints, Nat.sub_self,
      Nat.add_sub_cancel_left, decodedBefore_zero, hstop]
    rfl
  | @plain c cs hfront ih =>
    rw [breakpoints_cons hfront, ih, ← flatMap_breakpoints_eq (decodedBefore_cons hfront)]
    rcases segmentsFrom_plain hfront pos with hown | ⟨run, rest, hrun, hmore⟩
    · rw [hown]
      rfl
    · rw [hrun, hmore]
      rfl

theorem target_le_of_mem {cs : List Char} {pos before : Nat} {b : Breakpoint}
    (hb : b ∈ breakpoints before (segmentsFrom keep pos cs)) :
    b.target ≤ before + Utf8.size (decode keep cs) := by
  induction cs using unkept_induction keep generalizing pos before with
  | nil => simp [segmentsFrom_nil, Sgml.breakpoints] at hb
  | reference hfront ih =>
    rw [breakpoints_of_unkept? hfront, List.mem_cons, List.mem_cons] at hb
    rw [decode_of_unkept? hfront, Utf8.size_append]
    rcases hb with rfl | rfl | hb
    · exact Nat.le_add_right _ _
    · simp only
      omega
    · have := ih hb
      omega
  | plain hfront ih =>
    rw [breakpoints_cons hfront] at hb
    have := ih hb
    rw [decode_cons hfront, Utf8.size_cons]
    omega

/-- A text may be decoded in two chunks, cut anywhere but inside a reference. What is decoded so far
does not matter, and each reference adds its two breakpoints. -/
theorem append_in_chunks (keep : EscapeSet) {s t : List Char}
    (hcut : ¬ IsInside .none (s ++ t) (Utf8.size s)) (d : Decoded) :
    (∀ d', d.append keep (.identity 0) (s ++ t) = (d', none) ↔
      ∃ d₁, d.append keep (.identity 0) s = (d₁, none) ∧
        d₁.append keep ⟨Utf8.size s, 0⟩ t = (d', none)) ∧
      (∀ d', d.append keep (.identity 0) (s ++ t) = (d', none) →
        d'.text = d.text ++ decode keep (s ++ t) ∧
          d'.map = d.map ++ (segments keep (s ++ t)).flatMap
            (Segment.breakpoints keep (s ++ t) 0 (Utf8.size d.text))) ∧
      (Utf8.size (s ++ t) ≤ maxOffset →
        Utf8.size d.text + Utf8.size (decode keep (s ++ t)) ≤ maxOffset →
        ∃ d', d.append keep (.identity 0) (s ++ t) = (d', none)) := by
  have halone : ReadsAlone keep t s :=
    (cutsBetween_of_not_isInside fun h => hcut h.known).readsAlone
  refine ⟨fun d' => halone.append_iff, ?_, ?_⟩
  · intro d' h
    obtain ⟨-, rfl⟩ := Decoded.append_eq_iff.1 h
    exact ⟨rfl, congrArg (d.map ++ ·) (breakpoints_eq_flatMap (s ++ t) 0 _)⟩
  · intro hsource htarget
    refine ⟨_, Decoded.append_eq_iff.2 ⟨?_, rfl⟩⟩
    intro b hb
    have hle := source_le_of_mem hb
    have hle' := target_le_of_mem hb
    omega

/-- A reference that lacks its `;` may be cut. -/
theorem append_in_chunks_unended :
    ¬ IsInside .none (['&', 'l', 't', ';', '&', 'l'] ++ ['t', '&', 'g', 't', ';'])
        (Utf8.size ['&', 'l', 't', ';', '&', 'l']) ∧
      ∃ d₁, (⟨['x'], [⟨0, 0⟩]⟩ : Decoded).append .none (.identity 0)
          ['&', 'l', 't', ';', '&', 'l'] = (d₁, none) ∧
        d₁.append .none ⟨6, 0⟩ ['t', '&', 'g', 't', ';'] =
          (⟨['x', '<', '&', 'l', 't', '>'], [⟨0, 0⟩, ⟨0, 1⟩, ⟨4, 2⟩, ⟨7, 5⟩, ⟨11, 6⟩]⟩, none) := by
  have hsegments : segments .none (['&', 'l', 't', ';', '&', 'l'] ++ ['t', '&', 'g', 't', ';']) =
      [.reference ⟨0, 4⟩ ⟨'<', none, 4⟩, .text ['&', 'l', 't'],
        .reference ⟨7, 11⟩ ⟨'>', none, 4⟩] := by
    decide +kernel
  have hcut : ¬ IsInside .none (['&', 'l', 't', ';', '&', 'l'] ++ ['t', '&', 'g', 't', ';'])
      (Utf8.size ['&', 'l', 't', ';', '&', 'l']) := by
    rintro ⟨span, g, hmem, hlt, hgt⟩
    rw [hsegments] at hmem
    have hsize : Utf8.size ['&', 'l', 't', ';', '&', 'l'] = 6 := by decide
    simp only [List.mem_cons, Segment.reference.injEq, reduceCtorEq, List.not_mem_nil,
      false_or, or_false] at hmem
    rcases hmem with ⟨rfl, rfl⟩ | ⟨rfl, rfl⟩ <;> simp only [hsize] at hlt hgt <;> omega
  refine ⟨hcut, ?_⟩
  have hwhole : (⟨['x'], [⟨0, 0⟩]⟩ : Decoded).append .none (.identity 0)
      (['&', 'l', 't', ';', '&', 'l'] ++ ['t', '&', 'g', 't', ';']) =
        (⟨['x', '<', '&', 'l', 't', '>'], [⟨0, 0⟩, ⟨0, 1⟩, ⟨4, 2⟩, ⟨7, 5⟩, ⟨11, 6⟩]⟩, none) := by
    decide +kernel
  exact ((append_in_chunks .none hcut ⟨['x'], [⟨0, 0⟩]⟩).1 _).1 hwhole

end Appended

end Recognition.Sgml
