import Recognition.Proofs.Sgml.Chunks

namespace Recognition.Sgml

open Breakpoint

variable {keep : EscapeSet} {offset : Breakpoint}

theorem Decoded.appendSegments_cons {c : Char} {cs : List Char}
    (h : unkept? keep (c :: cs) = none) (d : Decoded) (pos : Nat) :
    d.appendSegments offset (segmentsFrom keep pos (c :: cs)) =
      (⟨d.text ++ [c], d.map⟩ : Decoded).appendSegments offset
        (segmentsFrom keep (pos + c.utf8Size) cs) := by
  rcases segmentsFrom_plain h pos with hown | ⟨run, rest, hrun, hmore⟩
  · rw [hown, appendSegments]
  · rw [hrun, hmore, appendSegments, appendSegments, List.append_assoc, List.singleton_append]

theorem Decoded.append_of_not_overflows {d : Decoded} {text : List Char}
    (h : ∀ b ∈ breakpoints (Utf8.size d.text) (segments keep text), ¬ offset.Overflows b) :
    d.append keep offset text =
      (⟨d.text ++ decode keep text,
        d.map ++ (breakpoints (Utf8.size d.text) (segments keep text)).map offset.plus⟩, none) :=
  appendSegments_eq (OffsetMap.mapM_add?_of_not_overflows h)

theorem source_le_of_mem_breakpoints {cs : List Char} {pos before : Nat} {b : Breakpoint}
    (hb : b ∈ breakpoints before (segmentsFrom keep pos cs)) : pos ≤ b.source := by
  rcases leads_breakpoints keep cs pos before b hb with rfl | hlead
  · exact Nat.le_refl _
  · simp only at hlead
    omega

theorem Decoded.appendSegments_of_overflows {cs : List Char} {pos : Nat} {d : Decoded}
    {b : Breakpoint}
    (h : (breakpoints (Utf8.size d.text) (segmentsFrom keep pos cs)).find?
      (offset.Overflows ·) = some b) :
    d.appendSegments offset (segmentsFrom keep pos cs) =
      (⟨d.text ++ decode keep (Utf8.before cs (b.source - pos)),
          d.map ++ ((breakpoints (Utf8.size d.text) (segmentsFrom keep pos cs)).takeWhile
            (¬ offset.Overflows ·)).map offset.plus⟩,
        some (.offsetOverflow b.source b.target)) := by
  induction cs using unkept_induction keep generalizing pos d with
  | nil => simp [segmentsFrom_nil, breakpoints] at h
  | @reference cs rest g hfront ih =>
    rw [breakpoints_of_unkept? hfront] at h ⊢
    rw [segmentsFrom_of_unkept? hfront]
    simp only [appendSegments]
    -- A reference has two breakpoints: the first overflows, or else the second, or neither.
    by_cases hfirst : offset.Overflows ⟨pos, Utf8.size d.text⟩
    · rw [List.find?_cons_of_pos (by simpa using hfirst)] at h
      obtain rfl := Option.some.inj h
      simp [add?_of_overflows hfirst, hfirst, Utf8.before_zero]
    · rw [List.find?_cons_of_neg (by simpa using hfirst)] at h
      rw [List.takeWhile_cons_of_pos (by simpa using hfirst), add?_of_not_overflows hfirst]
      by_cases hsecond : offset.Overflows ⟨pos + g.width, Utf8.size d.text + Utf8.size g.scalars⟩
      · rw [List.find?_cons_of_pos (by simpa using hsecond)] at h
        obtain rfl := Option.some.inj h
        have hdecode := (before_of_unkept? hfront 0).2
        rw [Utf8.before_zero, decode_nil, List.append_nil, Nat.add_zero] at hdecode
        simp [add?_of_overflows hsecond, hsecond, hdecode]
      · rw [List.find?_cons_of_neg (by simpa using hsecond), ← Utf8.size_append] at h
        have hrest := ih (d := ⟨d.text ++ g.scalars, d.map ++
          [offset.plus ⟨pos, Utf8.size d.text⟩,
            offset.plus ⟨pos + g.width, Utf8.size (d.text ++ g.scalars)⟩]⟩) h
        obtain ⟨p, hp⟩ := Nat.exists_eq_add_of_le
          (source_le_of_mem_breakpoints (List.mem_of_find?_eq_some h))
        have hdecode := (before_of_unkept? hfront p).2
        rw [hp, Nat.add_sub_cancel_left] at hrest
        rw [List.takeWhile_cons_of_pos (by simpa using hsecond), hp, Nat.add_assoc pos,
          Nat.add_sub_cancel_left, hdecode]
        simp only [Utf8.size_append] at hrest
        simp [add?_of_not_overflows hsecond, hrest, Nat.add_assoc pos]
  | @plain c cs hfront ih =>
    have hsize : Utf8.size d.text + c.utf8Size = Utf8.size (d.text ++ [c]) := by simp
    rw [breakpoints_cons hfront, hsize] at h ⊢
    obtain ⟨p, hp⟩ := Nat.exists_eq_add_of_le
      (source_le_of_mem_breakpoints (List.mem_of_find?_eq_some h))
    have hrest := ih (d := ⟨d.text ++ [c], d.map⟩) h
    rw [hp, Nat.add_sub_cancel_left] at hrest
    rw [appendSegments_cons hfront, hrest, hp, Nat.add_assoc pos, Nat.add_sub_cancel_left,
      (before_cons hfront p).2, List.append_assoc, List.singleton_append]

theorem find?_overflows_eq_none_iff (keep : EscapeSet) (offset : Breakpoint) (cs : List Char)
    (pos before : Nat) :
    (breakpoints before (segmentsFrom keep pos cs)).find? (offset.Overflows ·) = none ↔
      ∀ b ∈ (breakpoints before (segmentsFrom keep pos cs)).getLast?, ¬ offset.Overflows b := by
  -- As breakpoints rise, the last of them overflows with any other.
  have hrise : (breakpoints before (segmentsFrom keep pos cs)).Pairwise Leads :=
    (List.pairwise_cons.1 (pairwise_breakpoints cs pos before)).2
  rw [List.find?_eq_none]
  constructor
  · intro hnone b hb
    simpa using hnone b (List.mem_of_getLast? hb)
  · intro hlast b hb
    obtain ⟨l, hl⟩ := Option.isSome_iff_exists.1
      (List.getLast?_isSome.2 (List.ne_nil_of_mem hb))
    obtain ⟨init, hinit⟩ := List.getLast?_eq_some_iff.1 hl
    rw [hinit] at hrise hb
    rw [decide_eq_true_eq]
    rcases List.mem_append.1 hb with hb | hb
    · have hlead := (List.pairwise_append.1 hrise).2.2 b hb l (List.mem_singleton_self l)
      exact fun hover => hlast l hl (hover.of_leads hlead)
    · obtain rfl := List.mem_singleton.1 hb
      exact hlast b hl

/-- A text is added unless its last breakpoint overflows. What is added before the first that does
remains: the breakpoints before it, moved, and what is decoded up to it, behind what was there. The
fault tells that breakpoint as it was before it was to be moved. -/
theorem append_up_to_overflow (d : Decoded) (keep : EscapeSet) (offset : Breakpoint)
    (text : List Char) :
    let marks := (segments keep text).flatMap
      (Segment.breakpoints keep text 0 (Utf8.size d.text))
    ((d.append keep offset text).2 = none ↔ ∀ b ∈ marks.getLast?, ¬ offset.Overflows b) ∧
      d.append keep offset text =
        match marks.find? (offset.Overflows ·) with
        | none => (⟨d.text ++ decode keep text, d.map ++ marks.map offset.plus⟩, none)
        | some b =>
          (⟨d.text ++ decode keep (Utf8.before text b.source),
              d.map ++ (marks.takeWhile (¬ offset.Overflows ·)).map offset.plus⟩,
            some (.offsetOverflow b.source b.target)) := by
  intro marks
  have hmarks : marks = breakpoints (Utf8.size d.text) (segments keep text) :=
    (breakpoints_eq_flatMap text 0 _).symm
  have hlast := find?_overflows_eq_none_iff keep offset text 0 (Utf8.size d.text)
  rw [← segments, ← hmarks] at hlast
  rw [← hlast]
  cases hfind : marks.find? (offset.Overflows ·) with
  | none =>
    rw [hmarks, List.find?_eq_none] at hfind
    rw [Decoded.append_of_not_overflows (by simpa using hfind), hmarks]
    exact ⟨iff_of_true rfl rfl, rfl⟩
  | some b =>
    rw [hmarks] at hfind
    have happend := Decoded.appendSegments_of_overflows hfind
    rw [Decoded.append, segments, happend, hmarks]
    exact ⟨iff_of_false (by simp) (by simp), rfl⟩

/-- The breakpoint before the reference is moved to the last offset but two, that after it overflows
when the character is already added. -/
example :
    Decoded.append ⟨['x'], []⟩ .none ⟨maxOffset - 3, 0⟩ ['y', '&', 'a', 'm', 'p', ';', 'z'] =
      (⟨['x', 'y', '&'], [⟨maxOffset - 2, 2⟩]⟩, some (.offsetOverflow 6 3)) := by
  decide +kernel

end Recognition.Sgml
