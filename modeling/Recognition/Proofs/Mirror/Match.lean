import Recognition.Proofs.Grammar.Tiling
import Recognition.Proofs.Mirror.Source

namespace Recognition

/-- At the image of an offset `b` gives the image of what `a` gives there. -/
def Attempt.Mirrors (φ : Nat → Nat) (B : Nat → Prop) (a b : Attempt) : Prop :=
  ∀ ⦃p⦄, B p → b (φ p) = (a p).map (Match.mapOffsets φ) ∧
    ∀ m, a p = some m → m.span.start = p ∧ B m.span.stop

namespace Match

variable {φ : Nat → Nat} {B : Nat → Prop} {src dst : Source} {e f : Nat}

theorem chain_image {as bs : List Attempt} (h : List.Forall₂ (Attempt.Mirrors φ B) as bs)
    {pos : Nat} (hpos : B pos) :
    chain bs (φ pos) = (chain as pos).map (List.map (mapOffsets φ)) ∧
      ∀ ms, chain as pos = some ms → B (stopOf pos ms) := by
  induction h generalizing pos with
  | nil =>
    refine ⟨rfl, ?_⟩
    intro ms hms
    obtain rfl : [] = ms := by simpa [chain] using hms
    exact hpos
  | @cons a b as bs hab _ ih =>
    obtain ⟨himage, hin⟩ := hab hpos
    rw [chain, chain, himage]
    cases ha : a pos with
    | none => simp
    | some m =>
      obtain ⟨hrest, hstop⟩ := ih (hin m ha).2
      simp only [Option.map_some, Option.bind_eq_bind, Option.bind_some, span_mapOffsets,
        Span.mapOffsets, hrest]
      constructor
      · cases chain as m.span.stop <;> rfl
      · intro ms hms
        obtain ⟨ms', hms', h⟩ := Option.bind_eq_some_iff.1 hms
        obtain rfl := Option.some.inj h
        rw [stopOf_cons]
        exact hstop ms' hms'

theorem mirrors_sequence {as bs : List Attempt} (h : List.Forall₂ (Attempt.Mirrors φ B) as bs) :
    Attempt.Mirrors φ B (sequence as) (sequence bs) := by
  intro p hp
  obtain ⟨himage, hstop⟩ := chain_image h hp
  constructor
  · rw [sequence, sequence, himage, Option.map_map, Option.map_map]
    congr 1
    funext ms
    exact (mapOffsets_joined φ p ms).symm
  · intro m hm
    obtain ⟨ms, hms, rfl⟩ := Option.map_eq_some_iff.1 hm
    exact ⟨rfl, hstop ms hms⟩

theorem findSome?_image {as bs : List Attempt} (h : List.Forall₂ (Attempt.Mirrors φ B) as bs)
    {pos : Nat} (hpos : B pos) (k : Nat) :
    ((bs.zipIdx k).findSome? fun (b, i) =>
        (b (φ pos)).map fun m => (⟨⟨φ pos, m.span.stop⟩, some i, [m]⟩ : Match)) =
      ((as.zipIdx k).findSome? fun (a, i) =>
        (a pos).map fun m => (⟨⟨pos, m.span.stop⟩, some i, [m]⟩ : Match)).map (mapOffsets φ) := by
  induction h generalizing k with
  | nil => rfl
  | @cons a b as bs hab _ ih =>
    rw [List.zipIdx_cons, List.zipIdx_cons, List.findSome?_cons, List.findSome?_cons]
    simp only [(hab hpos).1]
    cases ha : a pos with
    | none => exact ih (k + 1)
    | some m => simp [mapOffsets, Span.mapOffsets]

theorem mirrors_branch {as bs : List Attempt} (h : List.Forall₂ (Attempt.Mirrors φ B) as bs) :
    Attempt.Mirrors φ B (branch as) (branch bs) := by
  intro p hp
  refine ⟨findSome?_image h hp 0, ?_⟩
  intro m hm
  obtain ⟨i, a, c, ha, hc, rfl⟩ := exists_of_branch hm
  obtain ⟨hi, rfl⟩ := List.getElem?_eq_some_iff.1 ha
  have hab := h.get hi (by rw [← h.length_eq]; exact hi)
  exact ⟨rfl, ((hab hp).2 c hc).2⟩

/-- Attempts with their places, of which those of one list mirror those of the other. -/
def Paired (φ : Nat → Nat) (B : Nat → Prop) : List (Attempt × Nat) → List (Attempt × Nat) → Prop :=
  List.Forall₂ fun a b => a.1.Mirrors φ B b.1 ∧ a.2 = b.2

theorem firstFit_image {as bs : List (Attempt × Nat)} (h : Paired φ B as bs) {pos : Nat}
    (hpos : B pos) :
    (firstFit pos as = none ∧ firstFit (φ pos) bs = none) ∨
      ∃ m i us vs, firstFit pos as = some ((m, i), us) ∧
        firstFit (φ pos) bs = some ((m.mapOffsets φ, i), vs) ∧ Paired φ B us vs ∧
        B m.span.stop := by
  induction h with
  | nil => exact .inl ⟨rfl, rfl⟩
  | @cons a b as bs hab hrest ih =>
    obtain ⟨a, i⟩ := a
    obtain ⟨b, j⟩ := b
    obtain ⟨hmirrors, rfl : i = j⟩ := hab
    obtain ⟨himage, hin⟩ : b (φ pos) = (a pos).map (mapOffsets φ) ∧ _ := hmirrors hpos
    rw [firstFit, firstFit, himage]
    cases ha : a pos with
    | some m => exact .inr ⟨m, i, as, bs, rfl, rfl, hrest, (hin m ha).2⟩
    | none =>
      rcases ih with ⟨has, hbs⟩ | ⟨m, k, us, vs, has, hbs, hunused, hstop⟩
      · exact .inl ⟨by simp [has], by simp [hbs]⟩
      · refine .inr ⟨m, k, (a, i) :: us, (b, i) :: vs, by simp [has], by simp [hbs], ?_, hstop⟩
        exact .cons ⟨hmirrors, rfl⟩ hunused

theorem arrange_image {as bs : List (Attempt × Nat)} (h : Paired φ B as bs) {pos : Nat}
    (hpos : B pos) :
    arrange bs (φ pos) = (arrange as pos).map (List.map (Prod.map (mapOffsets φ) id)) ∧
      ∀ ms, arrange as pos = some ms → B (stopOf pos (ms.map Prod.fst)) := by
  -- Each round removes one attempt somewhere in the list, so the induction is on its length.
  induction hn : as.length generalizing as bs pos with
  | zero =>
    obtain rfl := List.length_eq_zero_iff.1 hn
    obtain rfl := List.forall₂_nil_left_iff.1 h
    refine ⟨by simp [arrange], ?_⟩
    intro ms hms
    obtain rfl : [] = ms := by simpa [arrange] using hms
    exact hpos
  | succ n ih =>
    have hlen : as.length = bs.length := h.length_eq
    have has : ¬ as.isEmpty = true := by
      rw [List.isEmpty_iff_length_eq_zero]
      omega
    have hbs : ¬ bs.isEmpty = true := by
      rw [List.isEmpty_iff_length_eq_zero]
      omega
    rw [arrange_eq as, arrange_eq bs, if_neg has, if_neg hbs]
    rcases firstFit_image h hpos with ⟨ha, hb⟩ | ⟨m, i, us, vs, ha, hb, hunused, hstop⟩
    · simp [ha, hb]
    · have hus : us.length = n := by
        have := length_of_firstFit ha
        omega
      obtain ⟨himage, hin⟩ := ih hunused hstop hus
      simp only [ha, hb, Option.bind_some, span_mapOffsets, Span.mapOffsets, himage]
      constructor
      · cases arrange us m.span.stop <;> rfl
      · intro ms hms
        obtain ⟨ms', hms', rfl⟩ := Option.map_eq_some_iff.1 hms
        rw [List.map_cons, stopOf_cons]
        exact hin ms' hms'

theorem paired_zipIdx {as bs : List Attempt} (h : List.Forall₂ (Attempt.Mirrors φ B) as bs)
    (k : Nat) : Paired φ B (as.zipIdx k) (bs.zipIdx k) := by
  induction h generalizing k with
  | nil => exact .nil
  | cons hab _ ih =>
    rw [List.zipIdx_cons, List.zipIdx_cons]
    exact .cons ⟨hab, rfl⟩ (ih (k + 1))

theorem mirrors_permutation {as bs : List Attempt} (h : List.Forall₂ (Attempt.Mirrors φ B) as bs) :
    Attempt.Mirrors φ B (permutation as) (permutation bs) := by
  intro p hp
  obtain ⟨himage, hstop⟩ := arrange_image (paired_zipIdx h 0) hp
  constructor
  · rw [permutation, permutation, himage, Option.map_map, Option.map_map]
    congr 1
    funext ms
    have hfst (l : List (Match × Nat)) :
        (l.map (Prod.map (mapOffsets φ) id)).map Prod.fst =
          (l.map Prod.fst).map (mapOffsets φ) := by
      rw [List.map_map, List.map_map]
      rfl
    have hsort := List.map_mergeSort (l := ms) (r := fun m n : Match × Nat => decide (m.2 ≤ n.2))
      (s := fun m n => decide (m.2 ≤ n.2)) (f := Prod.map (mapOffsets φ) id) fun _ _ _ _ => rfl
    simp only [Function.comp_apply, joined, mapOffsets_mk, Span.mapOffsets, ← hsort, hfst,
      stopOf_mapOffsets]
  · intro m hm
    obtain ⟨ms, hms, rfl⟩ := Option.map_eq_some_iff.1 hm
    exact ⟨rfl, hstop ms hms⟩

theorem repetitions_image (h : src.MirrorsUpTo e dst f φ B) {a b : Attempt}
    (hab : a.Mirrors φ B b) (bounds : Bounds) (count : Nat) {pos : Nat} (hpos : B pos) :
    repetitions bounds b f count (φ pos) =
        (repetitions bounds a e count pos).map (mapOffsets φ) ∧
      B (stopOf pos (repetitions bounds a e count pos)) ∧
      ∀ m ∈ repetitions bounds a e count pos, B m.span.start ∧ B m.span.stop := by
  fun_induction repetitions bounds a e count pos with
  | case1 count pos hwants hnone =>
    rw [repetitions, if_pos hwants, (hab hpos).1, hnone]
    exact ⟨rfl, hpos, by simp⟩
  | case2 count pos hwants m hsome hmore ih =>
    obtain ⟨rfl, hstop⟩ := (hab hpos).2 m hsome
    obtain ⟨himage, hlast, hin⟩ := ih hstop
    -- The loop goes on in the image as it does here: the match is no more empty there.
    have hcond : φ m.span.start < φ m.span.stop ∧ φ m.span.stop ≤ f :=
      ⟨(h.lt_iff hpos hstop).2 hmore.1, (h.le_iff hstop).2 hmore.2⟩
    rw [repetitions, if_pos hwants, (hab hpos).1, hsome]
    simp only [Option.map_some, span_mapOffsets, Span.mapOffsets, if_pos hcond, himage,
      List.map_cons, stopOf_cons, List.forall_mem_cons]
    exact ⟨trivial, hlast, ⟨hpos, hstop⟩, hin⟩
  | case3 count pos hwants m hsome hdone =>
    obtain ⟨rfl, hstop⟩ := (hab hpos).2 m hsome
    have hcond : ¬ (φ m.span.start < φ m.span.stop ∧ φ m.span.stop ≤ f) := by
      rwa [h.lt_iff hpos hstop, h.le_iff hstop]
    rw [repetitions, if_pos hwants, (hab hpos).1, hsome]
    simp only [Option.map_some, span_mapOffsets, Span.mapOffsets, if_neg hcond, List.map_cons,
      List.map_nil, stopOf_cons, stopOf_nil, List.forall_mem_singleton]
    exact ⟨trivial, hstop, hpos, hstop⟩
  | case4 count pos hwants =>
    rw [repetitions, if_neg hwants]
    exact ⟨rfl, hpos, by simp⟩

theorem mirrors_iterations (h : src.MirrorsUpTo e dst f φ B) {a b : Attempt}
    (hab : a.Mirrors φ B b) {bounds : Bounds} :
    Attempt.Mirrors φ B (iterations bounds a e) (iterations bounds b f) := by
  intro p hp
  obtain ⟨himage, hstop, hin⟩ := repetitions_image h hab bounds 0 hp
  rw [iterations, iterations, himage]
  generalize repetitions bounds a e 0 p = ms at hstop hin ⊢
  have hempty : (ms.map (mapOffsets φ)).getLast?.any (·.span.isEmpty) =
      ms.getLast?.any (·.span.isEmpty) := by
    rw [List.getLast?_map]
    cases hlast : ms.getLast? with
    | none => rfl
    | some m =>
      obtain ⟨hbegin, hend⟩ := hin m (List.mem_of_getLast? hlast)
      simp only [Option.map_some, Option.any_some, span_mapOffsets, Span.mapOffsets, Span.isEmpty]
      rw [Bool.eq_iff_iff, beq_iff_eq, beq_iff_eq, h.eq_iff hbegin hend]
  simp only [hempty, List.length_map]
  constructor
  · split
    · rw [Option.map_some, mapOffsets_joined]
    · rfl
  · intro m hm
    split at hm
    · obtain rfl := Option.some.inj hm
      exact ⟨rfl, hstop⟩
    · simp at hm

end Match

end Recognition
