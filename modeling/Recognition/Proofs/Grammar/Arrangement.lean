import Mathlib.Data.List.Perm.Basic
import Recognition.Grammar.Match

namespace Recognition

namespace Match

/-- What is at the places `order` of a list, in that order. -/
def atPlaces {α : Type} (order : List Nat) (xs : List α) : List α := order.filterMap (xs[·]?)

section Places

variable {α β : Type} {xs : List α} {order : List Nat} {bs : List (α × Nat)}

theorem atPlaces_cons {i : Nat} {x : α} (h : xs[i]? = some x) (order : List Nat) :
    atPlaces (i :: order) xs = x :: atPlaces order xs := by
  rw [atPlaces, List.filterMap_cons, h]
  rfl

theorem atPlaces_map (f : α → β) (order : List Nat) (xs : List α) :
    atPlaces order (xs.map f) = (atPlaces order xs).map f := by
  unfold atPlaces
  rw [List.map_filterMap]
  apply List.filterMap_congr
  intro i _
  exact List.getElem?_map

theorem atPlaces_of_getElem? (h : ∀ b ∈ bs, xs[b.2]? = some b.1) :
    atPlaces (bs.map Prod.snd) xs = bs.map Prod.fst := by
  induction bs with
  | nil => rfl
  | cons b bs ih =>
    rw [List.forall_mem_cons] at h
    rw [List.map_cons, List.map_cons, atPlaces_cons h.1, ih h.2]

theorem perm_atPlaces (h : order.Perm (List.range xs.length)) : (atPlaces order xs).Perm xs := by
  have hall : atPlaces (List.range xs.length) xs = xs := by
    have hzip := atPlaces_of_getElem? fun b (hb : b ∈ xs.zipIdx) =>
      List.mem_zipIdx_iff_getElem?.1 hb
    rwa [List.zipIdx_map_snd, List.zipIdx_map_fst, ← List.range_eq_range'] at hzip
  exact (h.filterMap _).trans (.of_eq hall)

theorem exists_atPlaces (h : ∀ i ∈ order, i < xs.length) :
    ∃ bs : List (α × Nat), bs.map Prod.snd = order ∧ bs.map Prod.fst = atPlaces order xs ∧
      ∀ b ∈ bs, xs[b.2]? = some b.1 := by
  induction order with
  | nil => exact ⟨[], rfl, rfl, by simp⟩
  | cons i order ih =>
    rw [List.forall_mem_cons] at h
    obtain ⟨bs, rfl, hbs, hin⟩ := ih h.2
    have hi : xs[i]? = some xs[i] := List.getElem?_eq_getElem h.1
    exact ⟨(xs[i], i) :: bs, rfl, by rw [atPlaces_cons hi, ← hbs, List.map_cons],
      List.forall_mem_cons.2 ⟨hi, hin⟩⟩

theorem eq_zipIdx_of_places (h : bs.map Prod.snd = List.range bs.length) :
    bs = (bs.map Prod.fst).zipIdx := by
  rw [List.zipIdx_eq_zip_range', List.length_map, ← List.range_eq_range']
  exact List.zip_of_prod rfl h

theorem getElem?_mergeSort {n : Nat} (h : (bs.map Prod.snd).Perm (List.range n)) :
    ∀ b ∈ bs, ((bs.mergeSort fun b c => b.2 ≤ c.2).map Prod.fst)[b.2]? = some b.1 := by
  have hsorted : (bs.mergeSort fun b c => decide (b.2 ≤ c.2)).Pairwise
      fun b c => decide (b.2 ≤ c.2) = true := by
    apply List.pairwise_mergeSort
    · simp only [decide_eq_true_eq]
      omega
    · simp only [Bool.or_eq_true, decide_eq_true_eq]
      omega
  have hperm := bs.mergeSort_perm fun b c => decide (b.2 ≤ c.2)
  generalize (bs.mergeSort fun b c => decide (b.2 ≤ c.2)) = cs at hsorted hperm ⊢
  have hplaces : cs.map Prod.snd = List.range n := by
    refine List.Perm.eq_of_pairwise (fun _ _ _ _ => Nat.le_antisymm) ?_ List.pairwise_le_range
      ((hperm.map _).trans h)
    rw [List.pairwise_map]
    simpa only [decide_eq_true_eq] using hsorted
  have hlength : n = cs.length := by
    simpa using (congrArg List.length hplaces).symm
  intro b hb
  have hzip : (cs.map Prod.fst).zipIdx = cs := (eq_zipIdx_of_places (hlength ▸ hplaces)).symm
  apply List.mem_zipIdx_iff_getElem?.1
  rw [hzip]
  exact hperm.symm.subset hb

theorem eq_mergeSort_iff (h : (bs.map Prod.snd).Perm (List.range xs.length)) :
    xs = (bs.mergeSort fun b c => b.2 ≤ c.2).map Prod.fst ↔ ∀ b ∈ bs, xs[b.2]? = some b.1 := by
  have hsorted := getElem?_mergeSort h
  have hlength : xs.length =
      ((bs.mergeSort fun b c => decide (b.2 ≤ c.2)).map Prod.fst).length := by
    simpa using h.length_eq.symm
  generalize (bs.mergeSort fun b c => decide (b.2 ≤ c.2)).map Prod.fst = ys at hsorted hlength ⊢
  constructor
  · rintro rfl
    exact hsorted
  · intro hin
    apply List.ext_getElem?
    intro i
    by_cases hi : i < xs.length
    · obtain ⟨b, hb, rfl⟩ := List.mem_map.1 (h.symm.subset (List.mem_range.2 hi))
      rw [hin b hb, hsorted b hb]
    · rw [List.getElem?_eq_none (by omega), List.getElem?_eq_none (by omega)]

theorem rel_of_atPlaces {R : α → β → Prop} {ys : List β} (hxs : ∀ i ∈ order, i < xs.length)
    (hys : ∀ i ∈ order, i < ys.length)
    (h : List.Forall₂ R (atPlaces order xs) (atPlaces order ys)) :
    ∀ i ∈ order, ∀ x y, xs[i]? = some x → ys[i]? = some y → R x y := by
  induction order with
  | nil => simp
  | cons i order ih =>
    rw [List.forall_mem_cons] at hxs hys ⊢
    have hx : xs[i]? = some xs[i] := List.getElem?_eq_getElem hxs.1
    have hy : ys[i]? = some ys[i] := List.getElem?_eq_getElem hys.1
    rw [atPlaces_cons hx, atPlaces_cons hy, List.forall₂_cons] at h
    refine ⟨?_, ih hxs.2 hys.2 h.2⟩
    intro x y hx' hy'
    obtain rfl := Option.some.inj (hx.symm.trans hx')
    obtain rfl := Option.some.inj (hy.symm.trans hy')
    exact h.1

/-- What holds of two lists place by place in some order of them holds of them as they are. -/
theorem forall₂_of_atPlaces {R : α → β → Prop} {ys : List β}
    (hxs : order.Perm (List.range xs.length)) (hys : order.Perm (List.range ys.length))
    (h : List.Forall₂ R (atPlaces order xs) (atPlaces order ys)) : List.Forall₂ R xs ys := by
  have hrel := rel_of_atPlaces (fun i hi => List.mem_range.1 (hxs.subset hi))
    (fun i hi => List.mem_range.1 (hys.subset hi)) h
  refine List.forall₂_iff_get.2 ⟨by simpa using (hxs.symm.trans hys).length_eq, ?_⟩
  intro i hi hi'
  exact hrel i (hxs.symm.subset (List.mem_range.2 hi)) _ _ (List.getElem?_eq_getElem hi)
    (List.getElem?_eq_getElem hi')

end Places

section Arranged

variable {a : Attempt} {as : List Attempt} {bs : List (Attempt × Nat)} {ms : List (Match × Nat)}
  {pos : Nat}

@[simp] theorem stopOf_nil (start : Nat) : stopOf start [] = start := rfl

@[simp] theorem stopOf_cons (start : Nat) (m : Match) (ms : List Match) :
    stopOf start (m :: ms) = stopOf m.span.stop ms := by
  rw [stopOf, stopOf, List.getLast?_cons]
  cases ms.getLast? <;> rfl

theorem chain_cons_eq_some_iff {xs : List Match} :
    chain (a :: as) pos = some xs ↔
      ∃ x rest, a pos = some x ∧ chain as x.span.stop = some rest ∧ xs = x :: rest := by
  simp only [chain, Option.bind_eq_bind, Option.bind_eq_some_iff, Option.pure_def,
    Option.some.injEq]
  constructor
  · rintro ⟨x, hx, rest, hrest, rfl⟩
    exact ⟨x, rest, hx, hrest, rfl⟩
  · rintro ⟨x, rest, hx, hrest, rfl⟩
    exact ⟨x, hx, rest, hrest, rfl⟩

theorem firstFit_eq_none_iff : firstFit pos bs = none ↔ ∀ b ∈ bs, b.1 pos = none := by
  induction bs with
  | nil => simp [firstFit]
  | cons b bs ih =>
    rw [firstFit, List.forall_mem_cons, ← ih]
    split
    · simp_all
    · simp_all

theorem firstFit_eq_some_iff {m : Match} {i : Nat} {unused : List (Attempt × Nat)} :
    firstFit pos bs = some ((m, i), unused) ↔
      ∃ earlier a later, bs = earlier ++ (a, i) :: later ∧ unused = earlier ++ later ∧
        a pos = some m ∧ ∀ b ∈ earlier, b.1 pos = none := by
  induction bs generalizing unused with
  | nil => simp [firstFit]
  | cons b bs ih =>
    obtain ⟨b, j⟩ := b
    rw [firstFit]
    split
    · rename_i x hx
      constructor
      · intro h
        obtain ⟨hfit, rfl⟩ := Prod.mk.inj (Option.some.inj h)
        obtain ⟨rfl, rfl⟩ := Prod.mk.inj hfit
        exact ⟨[], b, bs, rfl, rfl, hx, by simp⟩
      · rintro ⟨earlier, a, later, hbs, rfl, ha, hfail⟩
        cases earlier with
        | nil =>
          obtain ⟨hb, rfl⟩ := List.cons.inj hbs
          obtain ⟨rfl, rfl⟩ := Prod.mk.inj hb
          obtain rfl := Option.some.inj (hx.symm.trans ha)
          rfl
        | cons c earlier =>
          obtain ⟨rfl, -⟩ := List.cons.inj hbs
          cases hx.symm.trans (hfail _ List.mem_cons_self)
    · rename_i hnone
      rw [Option.map_eq_some_iff]
      constructor
      · rintro ⟨⟨fit, unused'⟩, hfit, hr⟩
        obtain ⟨rfl, rfl⟩ := Prod.mk.inj hr
        obtain ⟨earlier, a, later, rfl, rfl, ha, hfail⟩ := ih.1 hfit
        exact ⟨(b, j) :: earlier, a, later, rfl, rfl, ha, List.forall_mem_cons.2 ⟨hnone, hfail⟩⟩
      · rintro ⟨earlier, a, later, hbs, rfl, ha, hfail⟩
        cases earlier with
        | nil =>
          obtain ⟨hb, -⟩ := List.cons.inj hbs
          obtain ⟨rfl, -⟩ := Prod.mk.inj hb
          rw [hnone] at ha
          cases ha
        | cons c earlier =>
          obtain ⟨rfl, rfl⟩ := List.cons.inj hbs
          exact ⟨_, ih.2 ⟨earlier, a, later, rfl, rfl, ha, (List.forall_mem_cons.1 hfail).2⟩, rfl⟩

/-- A run of the loop that takes up all attempts, from `pos` on. In each round it takes the first
that fits, and goes on where the match of it ends. -/
inductive Arranges : List (Attempt × Nat) → (pos : Nat) → List (Match × Nat) → Prop
  | nil {pos : Nat} : Arranges [] pos []
  | cons {earlier later : List (Attempt × Nat)} {a : Attempt} {i pos : Nat} {m : Match}
    {ms : List (Match × Nat)} (hfail : ∀ b ∈ earlier, b.1 pos = none) (hm : a pos = some m)
    (hrest : Arranges (earlier ++ later) m.span.stop ms) :
    Arranges (earlier ++ (a, i) :: later) pos ((m, i) :: ms)

theorem arrange_eq (as : List (Attempt × Nat)) (pos : Nat) :
    arrange as pos =
      if as.isEmpty then some []
      else (firstFit pos as).bind fun (fit, unused) =>
        (arrange unused fit.1.span.stop).map (fit :: ·) := by
  rw [arrange]
  by_cases hempty : as.isEmpty = true
  · rw [if_pos hempty, if_pos hempty]
  · rw [if_neg hempty, if_neg hempty]
    split <;> simp_all

theorem arrange_eq_some_iff : arrange bs pos = some ms ↔ Arranges bs pos ms := by
  constructor
  · intro h
    -- Each round leaves one attempt less, wherever in the list the one that fits stands.
    induction hn : bs.length generalizing bs pos ms with
    | zero =>
      obtain rfl := List.length_eq_zero_iff.1 hn
      obtain rfl : [] = ms := by simpa [arrange] using h
      exact .nil
    | succ n ih =>
      have hne : ¬ bs.isEmpty = true := by
        rw [List.isEmpty_iff_length_eq_zero]
        omega
      rw [arrange_eq, if_neg hne] at h
      obtain ⟨⟨⟨m, i⟩, unused⟩, hfit, h⟩ := Option.bind_eq_some_iff.1 h
      obtain ⟨ms', hms, rfl⟩ := Option.map_eq_some_iff.1 h
      have hlength := length_of_firstFit hfit
      obtain ⟨earlier, a, later, rfl, rfl, ha, hfail⟩ := firstFit_eq_some_iff.1 hfit
      exact .cons hfail ha (ih hms (by omega))
  · intro h
    induction h with
    | nil => simp [arrange]
    | @cons earlier later a i pos m ms hfail hm hrest ih =>
      have hfit : firstFit pos (earlier ++ (a, i) :: later) = some ((m, i), earlier ++ later) :=
        firstFit_eq_some_iff.2 ⟨earlier, a, later, rfl, rfl, hm, hfail⟩
      rw [arrange_eq, if_neg (by simp), hfit, Option.bind_some]
      exact Option.map_eq_some_iff.2 ⟨ms, ih, rfl⟩

/-- Of the attempts that are left in each round, the one taken is the first that fits. Their numbers
are `order`, and `ms` are the matches of them. -/
def FirstFits (bs : List (Attempt × Nat)) (start : Nat) (order : List Nat) (ms : List Match) :
    Prop :=
  ∀ k (hk : k < order.length), ∀ b ∈ bs, b.2 < order[k] → b.2 ∉ order.take k →
    b.1 (stopOf start (ms.take k)) = none

theorem pairwise_middle {earlier later : List (Attempt × Nat)} {c : Attempt × Nat}
    (h : (earlier ++ c :: later).Pairwise (·.2 < ·.2)) :
    (earlier ++ later).Pairwise (·.2 < ·.2) ∧ (∀ b ∈ earlier, b.2 < c.2) ∧
      ∀ b ∈ later, c.2 < b.2 := by
  have hsub : (earlier ++ later).Sublist (earlier ++ c :: later) :=
    (List.sublist_cons_self c later).append_left earlier
  obtain ⟨-, hlater, hbetween⟩ := List.pairwise_append.1 h
  exact ⟨h.sublist hsub, fun b hb => hbetween b hb c List.mem_cons_self,
    (List.pairwise_cons.1 hlater).1⟩

theorem firstFits_cons_iff {earlier later : List (Attempt × Nat)} {c : Attempt × Nat} {m : Match}
    {xs : List Match} {order : List Nat}
    (h : (earlier ++ c :: later).Pairwise (·.2 < ·.2)) :
    FirstFits (earlier ++ c :: later) pos (c.2 :: order) (m :: xs) ↔
      (∀ b ∈ earlier, b.1 pos = none) ∧
        FirstFits (earlier ++ later) m.span.stop order xs := by
  -- The attempts before `c` have lesser places, so they are those that must not match first.
  obtain ⟨-, hearlier, hlater⟩ := pairwise_middle h
  constructor
  · intro hfirst
    constructor
    · intro b hb
      exact hfirst 0 (by simp) b (List.mem_append_left _ hb) (hearlier b hb) List.not_mem_nil
    · intro k hk b hb hlt hfree
      have hne : b.2 ≠ c.2 := by
        rcases List.mem_append.1 hb with hb | hb
        · exact Nat.ne_of_lt (hearlier b hb)
        · exact Nat.ne_of_gt (hlater b hb)
      have hmem : b ∈ earlier ++ c :: later :=
        List.perm_middle.symm.subset (List.mem_cons_of_mem c hb)
      have hnone := hfirst (k + 1) (Nat.succ_lt_succ hk) b hmem hlt (by simp [hne, hfree])
      rwa [List.take_succ_cons, stopOf_cons] at hnone
  · rintro ⟨hfail, hrest⟩ k hk b hb hlt hfree
    rcases List.mem_cons.1 (List.perm_middle.subset hb) with rfl | hb
    · cases k with
      | zero => exact absurd hlt (Nat.lt_irrefl _)
      | succ k => exact absurd List.mem_cons_self hfree
    · cases k with
      | zero =>
        rcases List.mem_append.1 hb with hb | hb
        · exact hfail b hb
        · exact absurd hlt (Nat.not_lt_of_gt (hlater b hb))
      | succ k =>
        rw [List.take_succ_cons, stopOf_cons]
        exact hrest k (Nat.lt_of_succ_lt_succ hk) b hb hlt fun h =>
          hfree (List.mem_cons_of_mem _ h)

theorem arranges_iff (hbs : bs.Pairwise (·.2 < ·.2)) (hin : ∀ b ∈ bs, as[b.2]? = some b.1) :
    Arranges bs pos ms ↔
      (ms.map Prod.snd).Perm (bs.map Prod.snd) ∧
        chain (atPlaces (ms.map Prod.snd) as) pos = some (ms.map Prod.fst) ∧
        FirstFits bs pos (ms.map Prod.snd) (ms.map Prod.fst) := by
  constructor
  · intro h
    -- Each step removes one attempt, which stands between those that were tried before it and the
    -- rest.
    induction h with
    | nil => exact ⟨.nil, rfl, by simp [FirstFits]⟩
    | @cons earlier later a i pos m ms hfail hm hrest ih =>
      have hmiddle : (earlier ++ (a, i) :: later).Perm ((a, i) :: (earlier ++ later)) :=
        List.perm_middle
      obtain ⟨ha, hin'⟩ := List.forall_mem_cons.1 fun b hb => hin b (hmiddle.symm.subset hb)
      obtain ⟨hperm, hchain, hfirst⟩ := ih (pairwise_middle hbs).1 hin'
      refine ⟨(hperm.cons i).trans (hmiddle.map Prod.snd).symm, ?_,
        (firstFits_cons_iff hbs).2 ⟨hfail, hfirst⟩⟩
      rw [List.map_cons, atPlaces_cons ha]
      exact chain_cons_eq_some_iff.2 ⟨m, _, hm, hchain, rfl⟩
  · rintro ⟨hperm, hchain, hfirst⟩
    induction ms generalizing bs pos with
    | nil =>
      obtain rfl := List.map_eq_nil_iff.1 hperm.nil_eq.symm
      exact .nil
    | cons m ms ih =>
      obtain ⟨m, i⟩ := m
      obtain ⟨⟨a, i⟩, hmem, rfl⟩ := List.mem_map.1 (hperm.subset List.mem_cons_self)
      obtain ⟨earlier, later, rfl⟩ := List.append_of_mem hmem
      have hmiddle : (earlier ++ (a, i) :: later).Perm ((a, i) :: (earlier ++ later)) :=
        List.perm_middle
      obtain ⟨ha, hin'⟩ := List.forall_mem_cons.1 fun b hb => hin b (hmiddle.symm.subset hb)
      rw [List.map_cons, atPlaces_cons ha] at hchain
      obtain ⟨x, xs, hx, hxs, hms⟩ := chain_cons_eq_some_iff.1 hchain
      obtain ⟨rfl, rfl⟩ := List.cons.inj hms
      obtain ⟨hfail, hfirst⟩ := (firstFits_cons_iff hbs).1 hfirst
      exact .cons hfail hx (ih (pairwise_middle hbs).1 hin'
        (hperm.trans (hmiddle.map Prod.snd)).cons_inv hxs hfirst)

/-- The loop finds one order of the attempts, the one in which each is the first that fits. -/
theorem permutation_eq_some_iff {start : Nat} {m : Match} :
    permutation as start = some m ↔
      m.hit = none ∧ m.children.length = as.length ∧
        ∃ order : List Nat, order.Perm (List.range as.length) ∧
          sequence (atPlaces order as) start = some ⟨m.span, none, atPlaces order m.children⟩ ∧
          FirstFits as.zipIdx start order (atPlaces order m.children) := by
  have hplaces : as.zipIdx.map Prod.snd = List.range as.length := by
    rw [List.zipIdx_map_snd, ← List.range_eq_range']
  have hincreasing : as.zipIdx.Pairwise (·.2 < ·.2) := by
    rw [← List.pairwise_map, hplaces]
    exact List.pairwise_lt_range
  have hzip {ms : List (Match × Nat)} :
      Arranges as.zipIdx start ms ↔
        (ms.map Prod.snd).Perm (List.range as.length) ∧
          chain (atPlaces (ms.map Prod.snd) as) start = some (ms.map Prod.fst) ∧
          FirstFits as.zipIdx start (ms.map Prod.snd) (ms.map Prod.fst) := by
    rw [← hplaces]
    exact arranges_iff hincreasing fun b hb => List.mem_zipIdx_iff_getElem?.1 hb
  constructor
  · intro h
    obtain ⟨ms, hms, rfl⟩ := Option.map_eq_some_iff.1 h
    obtain ⟨hperm, hchain, hfirst⟩ := hzip.1 (arrange_eq_some_iff.1 hms)
    have hchildren := atPlaces_of_getElem? (getElem?_mergeSort hperm)
    refine ⟨rfl, by simpa using hperm.length_eq, ms.map Prod.snd, hperm, ?_, ?_⟩
    · rw [sequence, hchain, hchildren]
      rfl
    · rwa [hchildren]
  · obtain ⟨span, hit, children⟩ := m
    rintro ⟨rfl, hlength, order, hperm, hsequence, hfirst⟩
    rw [← hlength] at hperm
    obtain ⟨ms, rfl, hms, hin⟩ := exists_atPlaces fun i hi => List.mem_range.1 (hperm.subset hi)
    rw [← hms] at hsequence hfirst
    obtain ⟨xs, hchain, hjoined⟩ := Option.map_eq_some_iff.1 hsequence
    obtain ⟨rfl, -, rfl⟩ := Match.mk.inj hjoined
    have harranges := hzip.2 ⟨hlength ▸ hperm, hchain, hfirst⟩
    rw [permutation, arrange_eq_some_iff.2 harranges, Option.map_some, joined]
    rw [← (eq_mergeSort_iff hperm).2 hin]

end Arranged

end Match

end Recognition
