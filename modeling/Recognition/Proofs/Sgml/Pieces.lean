import Mathlib.Data.List.TakeWhile
import Recognition.Proofs.Sgml.Referring
import Recognition.Proofs.Sgml.Walk
import Recognition.Proofs.Truncation.Source

namespace Recognition

namespace Utf8

def amp : UInt8 := 0x26

/-- Whether byte `p` is between two characters, or at an end. -/
def IsBoundary (text : List Char) (p : Nat) : Prop := ∃ rest, locate text p = .boundary rest

def ampOffsets (text : List Char) : List Nat :=
  (List.range (size text)).filter fun p => byte? text p = some amp

theorem isBoundary_append (as bs : List Char) : IsBoundary (as ++ bs) (size as) :=
  ⟨bs, locate_size_append as bs⟩

/-- No byte of any other character is an `&`. -/
theorem exists_append_of_amp {text : List Char} {n : Nat} (h : byte? text n = some amp) :
    ∃ as bs, text = as ++ '&' :: bs ∧ size as = n :=
  (byte?_eq_some_iff (by decide)).1 h

theorem ampOffsets_append (as bs : List Char) :
    ampOffsets (as ++ bs) = ampOffsets as ++ (ampOffsets bs).map (size as + ·) := by
  rw [ampOffsets, size_append, List.range_add, List.filter_append, List.filter_map]
  congr 1
  · apply List.filter_congr
    intro p hp
    rw [byte?_append (List.mem_range.1 hp)]
  · simp only [Function.comp_def, byte?_append_right]
    rfl

theorem ampOffsets_of_notMem {text : List Char} (h : '&' ∉ text) : ampOffsets text = [] := by
  rw [ampOffsets, List.filter_eq_nil_iff]
  intro p _ hp
  obtain ⟨as, bs, rfl, -⟩ := exists_append_of_amp (of_decide_eq_true hp)
  simp at h

theorem ampOffsets_amp_cons {text : List Char} (h : '&' ∉ text) :
    ampOffsets ('&' :: text) = [0] := by
  have happend := ampOffsets_append ['&'] text
  rwa [ampOffsets_of_notMem h] at happend

end Utf8

namespace Sgml

/-- The pieces, each with the range of bytes that it takes, the first from `pos` on. -/
def Segment.placed (pos : Nat) : List Segment → List (Span × Segment)
  | [] => []
  | s :: ss => (⟨pos, pos + s.size⟩, s) :: placed (pos + s.size) ss

/-- The part of the text that a piece is written with. -/
def Segment.source (text : List Char) : Segment → List Char
  | .text chars => chars
  | .reference span _ => Utf8.slice text span

/-- The reference that is read at byte `p`, if it is to be replaced, and where it is written. -/
def unkeptAt? (keep : EscapeSet) (text : List Char) (p : Nat) : Option (Span × Glyph) :=
  ((Source.reference? text p (Utf8.size text)).filter fun g => !keep.covers g.base).map fun g =>
    (⟨p, p + g.width⟩, g)

/-- `piece` is what is cut from the text at `range`. -/
structure Segment.IsCut (keep : EscapeSet) (text : List Char) (range : Span) (piece : Segment) :
    Prop where
  start_lt_stop : range.start < range.stop
  start_isBoundary : Utf8.IsBoundary text range.start
  stop_isBoundary : Utf8.IsBoundary text range.stop
  source_eq : piece.source text = Utf8.slice text range
  source_ne_nil : piece.source text ≠ []
  span_eq : ∀ span g, piece = .reference span g → span = range
  /-- A run may begin with an `&`, which then begins no reference or one to be kept. -/
  of_amp : ∀ chars, piece = .text chars → ∀ p ∈ range, Utf8.byte? text p = some Utf8.amp →
    p = range.start ∧
      ∀ g, Source.reference? text p (Utf8.size text) = some g → keep.covers g.base = true

variable {keep : EscapeSet}

theorem unkeptAt?_append (keep : EscapeSet) (as cs : List Char) :
    unkeptAt? keep (as ++ '&' :: cs) (Utf8.size as) =
      (unkept? keep ('&' :: cs)).map fun r =>
        (⟨Utf8.size as, Utf8.size as + r.1.width⟩, r.1) := by
  rw [unkeptAt?, reference?_to_end, unkept?]
  cases hr : reference? cs with
  | none => rfl
  | some r => by_cases hkeep : keep.covers r.1.base = true <;> simp [Option.filter_some, hkeep]

theorem covers_of_unkeptAt? {text : List Char} {p : Nat} {g : Glyph}
    (h : unkeptAt? keep text p = none)
    (hg : Source.reference? text p (Utf8.size text) = some g) : keep.covers g.base = true := by
  rw [unkeptAt?, hg, Option.map_eq_none_iff, Option.filter_eq_none_iff] at h
  simpa using h g rfl

theorem filterMap_segmentsFrom (keep : EscapeSet) (as cs : List Char) :
    (segmentsFrom keep (Utf8.size as) cs).filterMap Segment.reference? =
      ((Utf8.ampOffsets cs).map (Utf8.size as + ·)).filterMap (unkeptAt? keep (as ++ cs)) := by
  induction cs using unkept_induction keep generalizing as with
  | nil =>
    rw [segmentsFrom_nil]
    rfl
  | @reference cs rest g hfront ih =>
    obtain ⟨tail, rfl, hends, hsize, -⟩ := exists_tail_of_unkept? hfront
    -- Within a reference there is no further `&`, so going on after it skips none.
    have hamp : '&' ∉ tail := fun hmem => absurd (hends _ hmem) (by decide)
    have hfirst := unkeptAt?_append keep as (tail ++ rest)
    have hrest := ih (as ++ '&' :: tail)
    rw [List.cons_append] at hfront
    rw [hfront] at hfirst
    rw [Utf8.size_append, hsize, List.append_assoc, List.cons_append] at hrest
    rw [List.cons_append, segmentsFrom_of_unkept? hfront, ← List.cons_append,
      Utf8.ampOffsets_append, Utf8.ampOffsets_amp_cons hamp, hsize, List.map_append, List.map_map]
    simp only [List.map_cons, List.map_nil, Nat.add_zero, List.cons_append, List.nil_append,
      List.filterMap_cons, hfirst, Option.map_some, Segment.reference?, hrest]
    simp only [Function.comp_def, Nat.add_assoc]
  | @plain c cs hfront ih =>
    have hrest := ih (as ++ [c])
    rw [Utf8.size_append, List.append_assoc] at hrest
    have hfirst : ((Utf8.ampOffsets [c]).map (Utf8.size as + ·)).filterMap
        (unkeptAt? keep (as ++ c :: cs)) = [] := by
      by_cases hc : c = '&'
      · rw [hc] at hfront ⊢
        have hnone := unkeptAt?_append keep as cs
        rw [hfront] at hnone
        rw [Utf8.ampOffsets_amp_cons List.not_mem_nil]
        simp [hnone]
      · rw [Utf8.ampOffsets_of_notMem (by simpa using Ne.symm hc)]
        rfl
    rw [filterMap_reference?_cons hfront, ← List.singleton_append, Utf8.ampOffsets_append,
      List.map_append, List.filterMap_append, List.singleton_append, hfirst, List.map_map]
    simp only [Function.comp_def, Nat.add_assoc] at hrest ⊢
    exact hrest

theorem slice_first (as bs cs : List Char) (hbs : bs ≠ []) :
    let range : Span := ⟨Utf8.size as, Utf8.size as + Utf8.size bs⟩
    range.start < range.stop ∧ Utf8.IsBoundary (as ++ (bs ++ cs)) range.start ∧
      Utf8.IsBoundary (as ++ (bs ++ cs)) range.stop ∧
      Utf8.slice (as ++ (bs ++ cs)) range = bs := by
  have hpos := size_pos_of_ne_nil hbs
  have hstop := Utf8.isBoundary_append (as ++ bs) cs
  rw [Utf8.size_append, List.append_assoc] at hstop
  exact ⟨Nat.lt_add_of_pos_right hpos, Utf8.isBoundary_append as _, hstop,
    Utf8.slice_append as bs cs⟩

theorem isCut_reference (as : List Char) {cs rest : List Char} {g : Glyph}
    (h : unkept? keep cs = some (g, rest)) :
    Segment.IsCut keep (as ++ cs) ⟨Utf8.size as, Utf8.size as + g.width⟩
      (.reference ⟨Utf8.size as, Utf8.size as + g.width⟩ g) := by
  obtain ⟨tail, rfl, -, hsize, -⟩ := exists_tail_of_unkept? h
  obtain ⟨hlt, hstart, hstop, hslice⟩ := slice_first as ('&' :: tail) rest (List.cons_ne_nil _ _)
  rw [hsize] at hlt hstart hstop hslice
  refine ⟨hlt, hstart, hstop, rfl, ?_, ?_, ?_⟩
  · rw [Segment.source, hslice]
    exact List.cons_ne_nil _ _
  · intro span g' heq
    exact (Segment.reference.inj heq).1.symm
  · intro chars heq
    cases heq

theorem isCut_text {as cs rest : List Char} {c : Char} (hamp : '&' ∉ cs)
    (h : unkept? keep (c :: (cs ++ rest)) = none) :
    Segment.IsCut keep (as ++ (c :: cs ++ rest))
      ⟨Utf8.size as, Utf8.size as + Utf8.size (c :: cs)⟩ (.text (c :: cs)) := by
  obtain ⟨hlt, hstart, hstop, hslice⟩ := slice_first as (c :: cs) rest (List.cons_ne_nil _ _)
  refine ⟨hlt, hstart, hstop, hslice.symm, List.cons_ne_nil _ _, ?_, ?_⟩
  · intro span g heq
    cases heq
  · intro chars _ p hp hbyte
    obtain ⟨n, rfl⟩ := Nat.exists_eq_add_of_le hp.1
    have hn : n < Utf8.size (c :: cs) := Nat.lt_of_add_lt_add_left hp.2
    simp only at hbyte
    rw [Utf8.byte?_append_right, Utf8.byte?_append hn] at hbyte
    obtain ⟨front, back, hsplit, hsize⟩ := Utf8.exists_append_of_amp hbyte
    cases front with
    | nil =>
      obtain ⟨rfl, rfl⟩ := List.cons.inj hsplit
      obtain rfl : 0 = n := hsize
      have hnone := unkeptAt?_append keep as (cs ++ rest)
      rw [h] at hnone
      exact ⟨rfl, fun g hg => covers_of_unkeptAt? hnone hg⟩
    | cons d front =>
      obtain ⟨-, rfl⟩ := List.cons.inj hsplit
      simp at hamp

theorem segmentsFrom_run {c : Char} {cs rest : List Char} (hcs : '&' ∉ cs)
    (hrest : ∀ d ∈ rest.head?, d = '&') (h : unkept? keep (c :: cs ++ rest) = none) (pos : Nat) :
    segmentsFrom keep pos (c :: cs ++ rest) =
      .text (c :: cs) :: segmentsFrom keep (pos + Utf8.size (c :: cs)) rest := by
  have hne : ∀ d ∈ cs, decide (d ≠ '&') = true := by
    intro d hd
    exact decide_eq_true fun heq => hcs (heq ▸ hd)
  rw [List.cons_append] at h ⊢
  rw [segmentsFrom_cons h, List.takeWhile_append_of_pos hne, List.dropWhile_append_of_pos hne]
  cases rest with
  | nil => simp
  | cons d rest =>
    obtain rfl := hrest d rfl
    simp

/-- Induction that takes from the front a reference to be replaced or a whole run. -/
@[elab_as_elim]
theorem run_induction (keep : EscapeSet) {motive : List Char → Prop} (nil : motive [])
    (reference : ∀ {cs rest : List Char} {g : Glyph}, unkept? keep cs = some (g, rest) →
      motive rest → motive cs)
    (run : ∀ {c : Char} {cs rest : List Char}, '&' ∉ cs → (∀ d ∈ rest.head?, d = '&') →
      unkept? keep (c :: cs ++ rest) = none → motive rest → motive (c :: cs ++ rest))
    (text : List Char) : motive text := by
  induction hn : text.length using Nat.strongRecOn generalizing text with
  | ind n ih =>
    cases hfront : unkept? keep text with
    | some r => exact reference hfront (ih _ (hn ▸ length_unkept?_lt hfront) r.2 rfl)
    | none =>
      cases text with
      | nil => exact nil
      | cons c cs =>
        have hsplit : c :: cs.takeWhile (· ≠ '&') ++ cs.dropWhile (· ≠ '&') = c :: cs := by
          rw [List.cons_append, List.takeWhile_append_dropWhile]
        have hlt := (List.dropWhile_suffix (· ≠ '&') (l := cs)).length_le
        -- The run ends at the next `&`, where a reference may begin again.
        rw [← hsplit] at hfront ⊢
        refine run ?_ ?_ hfront (ih _ ?_ _ rfl)
        · intro hamp
          simpa using List.mem_takeWhile_imp hamp
        · intro d hd
          have hhead := List.head?_dropWhile_not (· ≠ '&') cs
          rw [Option.mem_def.1 hd] at hhead
          simpa using hhead
        · rw [List.length_cons] at hn
          omega

theorem isCut_of_mem (as cs : List Char) :
    ∀ x ∈ Segment.placed (Utf8.size as) (segmentsFrom keep (Utf8.size as) cs),
      x.2.IsCut keep (as ++ cs) x.1 := by
  induction cs using run_induction keep generalizing as with
  | nil => simp [segmentsFrom_nil, Segment.placed]
  | @reference cs rest g hfront ih =>
    have hcut := isCut_reference as hfront
    obtain ⟨tail, rfl, -, hsize, -⟩ := exists_tail_of_unkept? hfront
    have hrest := ih (as ++ '&' :: tail)
    rw [Utf8.size_append, hsize, List.append_assoc] at hrest
    rw [segmentsFrom_of_unkept? hfront, Segment.placed, List.forall_mem_cons]
    exact ⟨hcut, hrest⟩
  | @run c cs rest hcs hstop hfront ih =>
    have hrest := ih (as ++ c :: cs)
    rw [Utf8.size_append, List.append_assoc] at hrest
    rw [segmentsFrom_run hcs hstop hfront, Segment.placed, List.forall_mem_cons]
    exact ⟨isCut_text hcs hfront, hrest⟩

theorem pairwise_placed (pos : Nat) (segs : List Segment) :
    (∀ x ∈ Segment.placed pos segs, pos ≤ x.1.start) ∧
      (Segment.placed pos segs).Pairwise fun x y => x.1.stop ≤ y.1.start := by
  induction segs generalizing pos with
  | nil => exact ⟨by simp [Segment.placed], .nil⟩
  | cons s segs ih =>
    obtain ⟨hfrom, hpairs⟩ := ih (pos + s.size)
    rw [Segment.placed, List.forall_mem_cons, List.pairwise_cons]
    refine ⟨⟨Nat.le_refl _, ?_⟩, hfrom, hpairs⟩
    intro x hx
    exact Nat.le_trans (Nat.le_add_right _ _) (hfrom x hx)

theorem flatMap_source (as cs : List Char) :
    (segmentsFrom keep (Utf8.size as) cs).flatMap (Segment.source (as ++ cs)) = cs := by
  induction cs using run_induction keep generalizing as with
  | nil =>
    rw [segmentsFrom_nil]
    rfl
  | @reference cs rest g hfront ih =>
    obtain ⟨tail, rfl, -, hsize, -⟩ := exists_tail_of_unkept? hfront
    have hrest := ih (as ++ '&' :: tail)
    rw [Utf8.size_append, hsize, List.append_assoc] at hrest
    rw [segmentsFrom_of_unkept? hfront, List.flatMap_cons, hrest, Segment.source, ← hsize,
      Utf8.slice_append]
  | @run c cs rest hcs hstop hfront ih =>
    have hrest := ih (as ++ c :: cs)
    rw [Utf8.size_append, List.append_assoc] at hrest
    rw [segmentsFrom_run hcs hstop hfront, List.flatMap_cons, hrest, Segment.source]

/-- Cut into pieces a text is not changed: what they are written with is the text again. Each takes
a range of bytes that begins where the one before it ends and is bounded by characters. In a run no
`&` begins a reference that is to be replaced, and those that are replaced are, in order, those that
are read at an `&` and are not to be kept. -/
theorem segments_lossless (keep : EscapeSet) (text : List Char) :
    (segments keep text).flatMap (Segment.source text) = text ∧
      (∀ x ∈ Segment.placed 0 (segments keep text), x.2.IsCut keep text x.1) ∧
      ((Segment.placed 0 (segments keep text)).Pairwise fun x y => x.1.stop ≤ y.1.start) ∧
      (segments keep text).filterMap Segment.reference? =
        (Utf8.ampOffsets text).filterMap (unkeptAt? keep text) := by
  refine ⟨flatMap_source [] text, isCut_of_mem [] text, (pairwise_placed 0 _).2, ?_⟩
  have hreferences := filterMap_segmentsFrom keep [] text
  simpa [segments] using hreferences

/-- The first `&` begins no reference, the second one that is kept, the third one that is not. -/
example : (segments ⟨[.ltGt], false⟩ "a&b&lt;&amp;".toList) =
    [.text ['a'], .text ['&', 'b'], .text "&lt;".toList, .reference ⟨7, 12⟩ ⟨'&', none, 5⟩] := by
  decide +kernel

end Sgml

end Recognition
