import Mathlib.Data.List.Basic
import Recognition.Proofs.Http.Progress

namespace Recognition.Http

variable {α : Type}

namespace Weighted

/-- Whether `a` comes before `b` if it was there first. -/
def outweighs (a b : Weighted α) : Bool := decide (b.weight.millis ≤ a.weight.millis)

@[simp] theorem outweighs_iff {a b : Weighted α} :
    outweighs a b = true ↔ b.weight.millis ≤ a.weight.millis := decide_eq_true_iff

/-- The values that a text is read for, in the order of the text. -/
def accepted (r : Reader α) (text : List UInt8) (start : Nat) (stop : Option Nat) :
    List (Weighted α) :=
  items r start ((Window.upTo text stop).drop start)

/-- Nothing is lost and nothing is there twice, the greater weights come first, and values of one
weight are in the order they were added in. -/
structure IsStableSort (sorted added : List (Weighted α)) : Prop where
  perm : sorted.Perm added
  descending : sorted.Pairwise fun a b => b.weight.millis ≤ a.weight.millis
  stable : ∀ w : Weight, sorted.filter (·.weight = w) = added.filter (·.weight = w)

namespace IsStableSort

variable {sorted sorted' added : List (Weighted α)}

theorem lt_of_mem_dropWhile (h : sorted.Pairwise fun a b => b.weight.millis ≤ a.weight.millis)
    (a : Weighted α) :
    ∀ b ∈ sorted.dropWhile (outweighs · a), b.weight.millis < a.weight.millis := by
  induction sorted with
  | nil => simp
  | cons b later ih =>
    rw [List.pairwise_cons] at h
    by_cases hb : outweighs b a = true
    · rw [List.dropWhile_cons_of_pos (p := (outweighs · a)) hb]
      exact ih h.2
    · rw [List.dropWhile_cons_of_neg (p := (outweighs · a)) hb, List.forall_mem_cons]
      have hlt : b.weight.millis < a.weight.millis := by simpa using hb
      exact ⟨hlt, fun c hc => Nat.lt_of_le_of_lt (h.1 c hc) hlt⟩

theorem push {c : WeightedList α} (h : IsStableSort c.items added) (a : Weighted α) :
    IsStableSort (c.push a).items (added ++ [a]) := by
  have hitems : (c.push a).items =
      c.items.takeWhile (outweighs · a) ++ a :: c.items.dropWhile (outweighs · a) := rfl
  have hbefore : ∀ b ∈ c.items.takeWhile (outweighs · a), a.weight.millis ≤ b.weight.millis :=
    fun b hb => outweighs_iff.1 (List.mem_takeWhile_imp (p := (outweighs · a)) hb)
  -- The item stands after the last one of its own weight.
  have hafter := lt_of_mem_dropWhile h.descending a
  refine ⟨?_, ?_, fun w => ?_⟩
  · exact (c.push_perm a).trans ((h.perm.cons a).trans (List.perm_append_singleton a added).symm)
  · rw [hitems, List.pairwise_append, List.pairwise_cons]
    refine ⟨h.descending.sublist (List.takeWhile_sublist _),
      ⟨fun b hb => Nat.le_of_lt (hafter b hb), h.descending.sublist (List.dropWhile_sublist _)⟩,
      fun b hb d hd => ?_⟩
    rcases List.mem_cons.1 hd with rfl | hd
    · exact hbefore b hb
    · exact Nat.le_trans (Nat.le_of_lt (hafter d hd)) (hbefore b hb)
  · have hsplit : c.items.filter (·.weight = w) =
        (c.items.takeWhile (outweighs · a)).filter (·.weight = w) ++
          (c.items.dropWhile (outweighs · a)).filter (·.weight = w) := by
      rw [← List.filter_append, List.takeWhile_append_dropWhile]
    rw [hitems, List.filter_append, List.filter_append, ← h.stable w, hsplit]
    by_cases hw : a.weight = w
    · -- What comes after the place of `a` has lost its weight already.
      have hnone : (c.items.dropWhile (outweighs · a)).filter (·.weight = w) = [] := by
        rw [List.filter_eq_nil_iff]
        intro b hb hbw
        have hlt := hafter b hb
        rw [of_decide_eq_true hbw, hw] at hlt
        exact Nat.lt_irrefl _ hlt
      simp [hw, hnone]
    · simp [hw]

theorem empty : IsStableSort (WeightedList.empty : WeightedList α).items [] :=
  ⟨.nil, .nil, fun _ => rfl⟩

theorem foldl_push {c : WeightedList α} (h : IsStableSort c.items added)
    (found : List (Weighted α)) :
    IsStableSort (found.foldl WeightedList.push c).items (added ++ found) := by
  induction found generalizing c added with
  | nil => simpa using h
  | cons a found ih => simpa using ih (h.push a)

theorem head_le {a b : Weighted α} {later : List (Weighted α)}
    (h : (a :: later).Pairwise fun a b => b.weight.millis ≤ a.weight.millis)
    (hb : b ∈ a :: later) : b.weight.millis ≤ a.weight.millis := by
  rcases List.mem_cons.1 hb with rfl | hb
  · exact Nat.le_refl _
  · exact (List.pairwise_cons.1 h).1 b hb

/-- A descending list is known by its values of each weight. -/
theorem eq_of_filter (h : sorted.Pairwise fun a b => b.weight.millis ≤ a.weight.millis)
    (h' : sorted'.Pairwise fun a b => b.weight.millis ≤ a.weight.millis)
    (hfilter : ∀ w : Weight, sorted.filter (·.weight = w) = sorted'.filter (·.weight = w)) :
    sorted = sorted' := by
  have hmem : ∀ {a}, a ∈ sorted ↔ a ∈ sorted' := by
    intro a
    have hiff := congrArg (a ∈ ·) (hfilter a.weight)
    simpa using hiff
  induction sorted generalizing sorted' with
  | nil =>
    cases sorted' with
    | nil => rfl
    | cons b later => exact absurd (hmem.2 List.mem_cons_self) List.not_mem_nil
  | cons a later ih =>
    cases sorted' with
    | nil => exact absurd (hmem.1 List.mem_cons_self) List.not_mem_nil
    | cons b later' =>
      have hmillis : a.weight.millis = b.weight.millis :=
        Nat.le_antisymm (head_le h' (hmem.1 List.mem_cons_self))
          (head_le h (hmem.2 List.mem_cons_self))
      have hweight : a.weight = b.weight := by
        cases ha : a.weight
        cases hb : b.weight
        simpa [ha, hb] using hmillis
      -- Both heads are of the greatest weight there is, and the first of that weight.
      obtain ⟨rfl, -⟩ := List.cons.inj (show
          a :: later.filter (·.weight = b.weight) = b :: later'.filter (·.weight = b.weight) by
        simpa [hweight] using hfilter b.weight)
      have hlater : ∀ w : Weight, later.filter (·.weight = w) = later'.filter (·.weight = w) := by
        intro w
        have hw := hfilter w
        by_cases haw : a.weight = w <;> simpa [haw] using hw
      refine congrArg (a :: ·) (ih (List.pairwise_cons.1 h).2 (List.pairwise_cons.1 h').2 hlater ?_)
      intro d
      have hiff := congrArg (d ∈ ·) (hlater d.weight)
      simpa using hiff

theorem mergeSort (added : List (Weighted α)) :
    IsStableSort (added.mergeSort outweighs) added := by
  have htrans : ∀ a b c : Weighted α, outweighs a b = true → outweighs b c = true →
      outweighs a c = true := by
    intro a b c hab hbc
    rw [outweighs_iff] at *
    exact Nat.le_trans hbc hab
  have htotal : ∀ a b : Weighted α, (outweighs a b || outweighs b a) = true := by
    intro a b
    rw [Bool.or_eq_true, outweighs_iff, outweighs_iff]
    exact Nat.le_total _ _
  have hperm := List.mergeSort_perm added outweighs
  refine ⟨hperm, ?_, fun w => ?_⟩
  · exact (List.pairwise_mergeSort htrans htotal added).imp outweighs_iff.1
  · have hlevel : (added.filter (·.weight = w)).Pairwise fun a b => outweighs a b = true := by
      rw [List.pairwise_filter]
      refine List.pairwise_of_forall fun a b ha hb => ?_
      rw [outweighs_iff, of_decide_eq_true ha, of_decide_eq_true hb]
    have hsub :=
      (List.sublist_mergeSort htrans htotal hlevel List.filter_sublist).filter (·.weight = w)
    simp only [List.filter_filter, Bool.and_self] at hsub
    exact (hsub.eq_of_length (hperm.filter _).length_eq.symm).symm

theorem eq_mergeSort (h : IsStableSort sorted added) : sorted = added.mergeSort outweighs :=
  eq_of_filter h.descending (mergeSort added).descending fun w =>
    (h.stable w).trans ((mergeSort added).stable w).symm

theorem mergeSort_eq_foldl (added : List (Weighted α)) :
    added.mergeSort outweighs = (added.foldl WeightedList.push WeightedList.empty).items :=
  (empty.foldl_push added).eq_mergeSort.symm

end IsStableSort

end Weighted

/-- Looks between two places of a list for where the elements of a class end, by halving. -/
def bisect (p : α → Bool) (xs : List α) (lo hi : Nat) : Nat :=
  if lo < hi then
    if xs[(lo + hi) / 2]?.any p then bisect p xs ((lo + hi) / 2 + 1) hi
    else bisect p xs lo ((lo + hi) / 2)
  else lo
termination_by hi - lo

/-- Halving finds the end of a class if all of its elements come first. -/
theorem bisect_append {p : α → Bool} {before after : List α} {lo hi : Nat}
    (hbefore : ∀ x ∈ before, p x = true) (hafter : ∀ x ∈ after, p x = false)
    (hlo : lo ≤ before.length) (hmid : before.length ≤ hi) (hhi : hi ≤ (before ++ after).length) :
    bisect p (before ++ after) lo hi = before.length := by
  rw [List.length_append] at hhi
  fun_induction bisect p (before ++ after) lo hi with
  | case1 lo hi hlt hin ih =>
    refine ih ?_ hmid hhi
    by_contra hle
    rw [List.getElem?_append_right (by omega), List.getElem?_eq_getElem (by omega)] at hin
    simp [hafter _ (List.getElem_mem _)] at hin
  | case2 lo hi hlt hout ih =>
    refine ih hlo ?_ (by omega)
    by_contra hgt
    rw [List.getElem?_append_left (by omega), List.getElem?_eq_getElem (by omega)] at hout
    simp [hbefore _ (List.getElem_mem _)] at hout
  | case3 lo hi hge => omega

theorem insertIdx_length_append (before after : List α) (a : α) :
    (before ++ after).insertIdx before.length a = before ++ a :: after := by
  induction before with
  | nil => rfl
  | cons b before ih => simp [ih]

namespace WeightedList

open Weighted

/-- What can be done to a list of weighted values. -/
inductive Change (α : Type) where
  | new
  | push (a : Weighted α)
  | insert (text : List UInt8) (start : Nat) (stop : Option Nat)
  | clear

variable (r : Reader α)

def change (c : WeightedList α) : Change α → WeightedList α
  | .new => empty
  | .push a => c.push a
  | .insert text start stop => c.insert r text start stop
  | .clear => c.clear

/-- What was added since the list was last empty, after one more change. -/
def addedAfter (added : List (Weighted α)) : Change α → List (Weighted α)
  | .new | .clear => []
  | .push a => added ++ [a]
  | .insert text start stop => added ++ accepted r text start stop

def run (changes : List (Change α)) : WeightedList α := changes.foldl (change r) empty

def added (changes : List (Change α)) : List (Weighted α) := changes.foldl (addedAfter r) []

variable {r} {c : WeightedList α} {found : List (Weighted α)}

theorem isStableSort_change (h : IsStableSort c.items found) (x : Change α) :
    IsStableSort (change r c x).items (addedAfter r found x) := by
  cases x with
  | new => exact .empty
  | push a => exact h.push a
  | insert text start stop => exact h.foldl_push (accepted r text start stop)
  | clear => exact .empty

theorem isStableSort_foldl (h : IsStableSort c.items found) (changes : List (Change α)) :
    IsStableSort (changes.foldl (change r) c).items (changes.foldl (addedAfter r) found) := by
  induction changes generalizing c found with
  | nil => exact h
  | cons x changes ih => exact ih (isStableSort_change h x)

theorem exists_push (h : IsStableSort c.items found) (a : Weighted α) :
    ∃ before after, c.items = before ++ after ∧ (∀ b ∈ before, outweighs b a = true) ∧
      (∀ b ∈ after, outweighs b a = false) ∧ (c.push a).items = before ++ a :: after := by
  refine ⟨c.items.takeWhile (outweighs · a), c.items.dropWhile (outweighs · a),
    List.takeWhile_append_dropWhile.symm, fun b hb => ?_, fun b hb => ?_, rfl⟩
  · exact List.mem_takeWhile_imp (p := (outweighs · a)) hb
  · simpa [outweighs] using IsStableSort.lt_of_mem_dropWhile h.descending a b hb

theorem items_push (h : IsStableSort c.items found) (a : Weighted α) :
    (c.push a).items =
      c.items.insertIdx (bisect (outweighs · a) c.items 0 c.items.length) a := by
  obtain ⟨before, after, hitems, hbefore, hafter, hpush⟩ := exists_push h a
  have hmid : before.length ≤ (before ++ after).length := by
    rw [List.length_append]
    exact Nat.le_add_right _ _
  rw [hpush, hitems, bisect_append hbefore hafter (Nat.zero_le _) hmid (Nat.le_refl _),
    insertIdx_length_append]

/-- Whatever is done to a list of weighted values, one thing after the other: it holds what was
added since it was last empty, in the order of a stable sort that puts the greater weights first.
Halving finds the place of a further value, and a text adds its values in its own order. -/
theorem items_run (r : Reader α) (changes : List (Change α)) :
    (run r changes).items = (added r changes).mergeSort outweighs ∧
      IsStableSort (run r changes).items (added r changes) ∧
      (∀ a, ((run r changes).push a).items =
        (run r changes).items.insertIdx
          (bisect (outweighs · a) (run r changes).items 0 (run r changes).items.length) a) ∧
      ∀ text start stop, Advances (Window.upTo text stop).length start
        ((accepted r text start stop).map Weighted.span) := by
  have hsort : IsStableSort (run r changes).items (added r changes) :=
    isStableSort_foldl .empty changes
  exact ⟨hsort.eq_mergeSort, hsort, items_push hsort, advances_accepted r⟩

end WeightedList

end Recognition.Http
