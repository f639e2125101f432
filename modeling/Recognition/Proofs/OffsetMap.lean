import Recognition.OffsetMap

namespace Recognition

namespace Breakpoint

/-- Where both texts begin. -/
def origin : Breakpoint := .identity 0

/-- The same breakpoint, or an earlier one on both sides. -/
def Before (a b : Breakpoint) : Prop := a = b ∨ (a.source < b.source ∧ a.target < b.target)

/-- The same breakpoint, or an earlier one from where the target gets no farther than the source. -/
def Leads (a b : Breakpoint) : Prop :=
  a = b ∨ (a.target < b.target ∧ b.target - a.target ≤ b.source - a.source)

/-- The sum is no offset on one side or on both. -/
def Overflows (offset b : Breakpoint) : Prop :=
  maxOffset < offset.source + b.source ∨ maxOffset < offset.target + b.target

instance (offset b : Breakpoint) : Decidable (offset.Overflows b) :=
  inferInstanceAs (Decidable (_ ∨ _))

def plus (offset b : Breakpoint) : Breakpoint :=
  ⟨offset.source + b.source, offset.target + b.target⟩

variable {offset a b c : Breakpoint}

theorem Leads.refl (a : Breakpoint) : a.Leads a := .inl rfl

theorem Leads.before (h : a.Leads b) : a.Before b := by
  rcases h with rfl | h
  · exact .inl rfl
  · exact .inr (by omega)

theorem Leads.trans (hab : a.Leads b) (hbc : b.Leads c) : a.Leads c := by
  rcases hab with rfl | hab
  · exact hbc
  · rcases hbc with rfl | hbc
    · exact .inr hab
    · exact .inr (by omega)

theorem Before.swap (h : a.Before b) : a.swap.Before b.swap := by
  rcases h with rfl | h
  · exact .inl rfl
  · exact .inr ⟨h.2, h.1⟩

theorem add?_of_overflows (h : offset.Overflows b) : offset.add? b = none := by
  unfold Overflows at h
  exact if_neg (by omega)

theorem add?_of_not_overflows (h : ¬ offset.Overflows b) :
    offset.add? b = some (offset.plus b) := by
  unfold Overflows at h
  exact if_pos (by omega)

theorem Overflows.of_leads (h : offset.Overflows a) (hab : a.Leads b) : offset.Overflows b := by
  rcases hab with rfl | hlead
  · exact h
  · unfold Overflows at h ⊢
    omega

end Breakpoint

namespace OffsetMap

open Breakpoint

variable {map : OffsetMap} {x y z : Nat} {b : Breakpoint}

theorem mem_swap : b ∈ map.swap ↔ b.swap ∈ map := by
  rw [swap, List.mem_map]
  constructor
  · rintro ⟨c, hc, rfl⟩
    exact hc
  · intro hb
    exact ⟨b.swap, hb, rfl⟩

section Bisection

/-- The translation of an offset between two breakpoints that follow each other, or outside. -/
def between (before after : OffsetMap) (x : Nat) : Nat :=
  match before.getLast?, after.head? with
  | some b, _ => min (b.target + (x - b.source)) maxOffset
  | none, some b => min x b.target
  | none, none => x

/-- What a bisection for `x` may give. It comes upon any of the breakpoints at `x` or, if there is
none, upon the place between those before `x` and those after. -/
inductive Bisects (map : OffsetMap) (x : Nat) : Nat → Prop
  | hit {b : Breakpoint} (hb : b ∈ map) (hx : b.source = x) : Bisects map x b.target
  | miss {before after : OffsetMap} (hmap : map = before ++ after)
    (hbefore : ∀ b ∈ before, b.source < x) (hafter : ∀ b ∈ after, x < b.source) :
    Bisects map x (between before after x)

theorem toTarget_append {before after : OffsetMap} (hbefore : ∀ b ∈ before, b.source < x)
    (hafter : ∀ b ∈ after, x < b.source) :
    toTarget (before ++ after) x = between before after x := by
  have hfind : (before ++ after).find? (·.source = x) = none := by
    rw [List.find?_eq_none]
    intro b hb
    rcases List.mem_append.1 hb with hb | hb
    · have := hbefore b hb
      simp only [decide_eq_true_eq]
      omega
    · have := hafter b hb
      simp only [decide_eq_true_eq]
      omega
  have hwhile : (before ++ after).takeWhile (·.source < x) = before := by
    rw [List.takeWhile_append_of_pos (by simpa using hbefore)]
    cases after with
    | nil => simp
    | cons b after =>
      have := hafter b List.mem_cons_self
      rw [List.takeWhile_cons_of_neg (by simp only [decide_eq_true_eq]; omega), List.append_nil]
  rw [toTarget, hfind, hwhile, between]
  cases hlast : before.getLast? with
  | some b => rfl
  | none =>
    rw [List.getLast?_eq_none_iff.1 hlast, List.nil_append]
    cases after.head? <;> rfl

theorem exists_split (hmap : map.Pairwise fun a b => a.source ≤ b.source)
    (hx : ∀ b ∈ map, b.source ≠ x) :
    ∃ before after, map = before ++ after ∧ (∀ b ∈ before, b.source < x) ∧
      ∀ b ∈ after, x < b.source := by
  induction map with
  | nil => exact ⟨[], [], rfl, by simp, by simp⟩
  | cons b map ih =>
    rw [List.pairwise_cons] at hmap
    rw [List.forall_mem_cons] at hx
    by_cases hb : b.source < x
    · obtain ⟨before, after, rfl, hbefore, hafter⟩ := ih hmap.2 hx.2
      refine ⟨b :: before, after, rfl, ?_, hafter⟩
      rw [List.forall_mem_cons]
      exact ⟨hb, hbefore⟩
    · have hxb : x < b.source := by omega
      refine ⟨[], b :: map, rfl, by simp, ?_⟩
      rw [List.forall_mem_cons]
      refine ⟨hxb, ?_⟩
      intro c hc
      exact Nat.lt_of_lt_of_le hxb (hmap.1 c hc)

end Bisection

/-- Breakpoints that rise on both sides, or repeat. Up to the first the texts are the same. -/
structure Rises (map : OffsetMap) : Prop where
  pairwise : (origin :: map).Pairwise Before
  level : ∀ b ∈ map.head?, b.source = b.target

/-- Breakpoints between which the target is never longer than the source. -/
structure Condenses (map : OffsetMap) : Prop where
  pairwise : (origin :: map).Pairwise Leads
  level : ∀ b ∈ map.head?, b.source = b.target

theorem Condenses.rises (h : map.Condenses) : map.Rises :=
  ⟨h.pairwise.imp Leads.before, h.level⟩

theorem Rises.swap (h : map.Rises) : map.swap.Rises where
  pairwise := by
    have hpairwise := h.pairwise.map Breakpoint.swap fun _ _ => Before.swap
    rwa [List.map_cons] at hpairwise
  level := by
    intro b hb
    rw [OffsetMap.swap, List.head?_map, Option.mem_def, Option.map_eq_some_iff] at hb
    obtain ⟨c, hc, rfl⟩ := hb
    exact (h.level c hc).symm

theorem mapM_add?_of_not_overflows {offset : Breakpoint}
    (h : ∀ b ∈ map, ¬ offset.Overflows b) :
    map.mapM offset.add? = some (map.map offset.plus) := by
  induction map with
  | nil => rfl
  | cons b map ih =>
    rw [List.forall_mem_cons] at h
    rw [List.mapM_cons, add?_of_not_overflows h.1, ih h.2]
    rfl

theorem mapM_add?_zero (h : ∀ b ∈ map, b.source ≤ maxOffset ∧ b.target ≤ maxOffset) :
    map.mapM (identity 0).add? = some map := by
  have hplus : (identity 0).plus = id := by
    funext b
    simp [plus, identity]
  have hnone : ∀ b ∈ map, ¬ (identity 0).Overflows b := by
    intro b hb
    have := h b hb
    simp only [Overflows, identity]
    omega
  rw [mapM_add?_of_not_overflows hnone, hplus, List.map_id]

theorem mapM_add?_zero_eq_some {map' : OffsetMap} :
    map.mapM (identity 0).add? = some map' ↔
      map' = map ∧ ∀ b ∈ map, b.source ≤ maxOffset ∧ b.target ≤ maxOffset := by
  constructor
  · intro h
    induction map generalizing map' with
    | nil => exact ⟨(Option.some.inj h).symm, by simp⟩
    | cons b map ih =>
      simp only [List.mapM_cons, Option.bind_eq_bind, Option.bind_eq_some_iff, Option.pure_def,
        Option.some.injEq] at h
      obtain ⟨b', hb, rest, hrest, rfl⟩ := h
      obtain ⟨hle, rfl⟩ : (b.source ≤ maxOffset ∧ b.target ≤ maxOffset) ∧ b = b' := by
        simpa [add?, identity] using hb
      obtain ⟨rfl, hmap⟩ := ih hrest
      exact ⟨rfl, List.forall_mem_cons.2 ⟨hle, hmap⟩⟩
  · rintro ⟨rfl, h⟩
    exact mapM_add?_zero h

theorem pairwise_leads_cons {a b : Breakpoint} {bs : OffsetMap} (hab : a.Leads b)
    (h : (b :: bs).Pairwise Leads) : (a :: b :: bs).Pairwise Leads := by
  refine List.Pairwise.cons ?_ h
  rw [List.forall_mem_cons]
  exact ⟨hab, fun c hc => hab.trans ((List.pairwise_cons.1 h).1 c hc)⟩

theorem or_of_pairwise {R : Breakpoint → Breakpoint → Prop} (hrefl : ∀ a, R a a)
    {bs : OffsetMap} (h : bs.Pairwise R) {a b : Breakpoint} (ha : a ∈ bs) (hb : b ∈ bs) :
    R a b ∨ R b a :=
  List.Pairwise.forall_of_forall_of_flip (R := fun a b => R a b ∨ R b a)
    (fun a _ => .inl (hrefl a)) (h.imp .inl) (h.imp .inr) ha hb

theorem Rises.compare (h : map.Rises) {a b : Breakpoint} (ha : a ∈ origin :: map)
    (hb : b ∈ origin :: map) : a.Before b ∨ b.Before a :=
  or_of_pairwise (fun _ => .inl rfl) h.pairwise ha hb

theorem Rises.eq_of_source (h : map.Rises) {a b : Breakpoint} (ha : a ∈ origin :: map)
    (hb : b ∈ origin :: map) (heq : a.source = b.source) : a = b := by
  rcases h.compare ha hb with hab | hba
  · rcases hab with rfl | hab
    · rfl
    · omega
  · rcases hba with rfl | hba
    · rfl
    · omega

theorem Rises.source_lt (h : map.Rises) {a b : Breakpoint} (ha : a ∈ origin :: map)
    (hb : b ∈ origin :: map) (hlt : a.target < b.target) : a.source < b.source := by
  rcases h.compare ha hb with hab | hba
  · rcases hab with rfl | hab
    · omega
    · exact hab.1
  · rcases hba with rfl | hba
    · omega
    · omega

theorem Rises.toTarget_of_mem (h : map.Rises) (hb : b ∈ map) : map.toTarget b.source = b.target :=
  OffsetMap.toTarget_of_mem hb fun _ hc heq =>
    h.eq_of_source (List.mem_cons_of_mem _ hc) (List.mem_cons_of_mem _ hb) heq

theorem Rises.exists_split (h : map.Rises) (hx : ∀ b ∈ map, b.source ≠ x) :
    ∃ before after, map = before ++ after ∧ (∀ b ∈ before, b.source < x) ∧
      ∀ b ∈ after, x < b.source := by
  refine OffsetMap.exists_split (h.pairwise.tail.imp ?_) hx
  intro a b hab
  rcases hab with rfl | hab
  · exact Nat.le_refl _
  · exact Nat.le_of_lt hab.1

/-- Bisection gives the translation and nothing else. -/
theorem Rises.bisects_iff (h : map.Rises) : map.Bisects x y ↔ y = map.toTarget x := by
  constructor
  · intro hy
    cases hy with
    | hit hb hx => rw [← hx, h.toTarget_of_mem hb]
    | miss hmap hbefore hafter => rw [hmap, toTarget_append hbefore hafter]
  · rintro rfl
    by_cases hx : ∃ b ∈ map, b.source = x
    · obtain ⟨b, hb, rfl⟩ := hx
      rw [h.toTarget_of_mem hb]
      exact .hit hb rfl
    · obtain ⟨before, after, rfl, hbefore, hafter⟩ :=
        h.exists_split fun b hb heq => hx ⟨b, hb, heq⟩
      rw [toTarget_append hbefore hafter]
      exact .miss rfl hbefore hafter

/-- `b` is the last of some breakpoints at or before `x`. -/
structure IsLast (bs : OffsetMap) (x : Nat) (b : Breakpoint) : Prop where
  mem : b ∈ bs
  le : b.source ≤ x
  next : ∀ c ∈ bs, b.source < c.source → x < c.source

theorem exists_isLast {bs : OffsetMap} (h : ∃ b ∈ bs, b.source ≤ x) : ∃ b, bs.IsLast x b := by
  induction bs with
  | nil => simp at h
  | cons c bs ih =>
    by_cases htail : ∃ b ∈ bs, b.source ≤ x
    · obtain ⟨b, hb⟩ := ih htail
      by_cases hc : b.source < c.source ∧ c.source ≤ x
      · refine ⟨c, List.mem_cons_self, hc.2, ?_⟩
        rw [List.forall_mem_cons]
        refine ⟨by omega, ?_⟩
        intro d hd hlt
        exact hb.next d hd (by omega)
      · refine ⟨b, List.mem_cons_of_mem _ hb.mem, hb.le, ?_⟩
        rw [List.forall_mem_cons]
        exact ⟨by omega, hb.next⟩
    · obtain ⟨b, hb, hle⟩ := h
      rcases List.mem_cons.1 hb with rfl | hb
      · refine ⟨b, List.mem_cons_self, hle, ?_⟩
        rw [List.forall_mem_cons]
        refine ⟨by omega, ?_⟩
        intro d hd _
        exact Nat.lt_of_not_le fun hdx => htail ⟨d, hd, hdx⟩
      · exact absurd ⟨b, hb, hle⟩ htail

theorem exists_isLast_origin (map : OffsetMap) (x : Nat) : ∃ b, IsLast (origin :: map) x b :=
  exists_isLast ⟨origin, List.mem_cons_self, Nat.zero_le x⟩

theorem IsLast.notMem {bs after : OffsetMap} (hb : IsLast bs x b)
    (hafter : ∀ c ∈ after, x < c.source) : b ∉ after := by
  intro hmem
  have := hafter b hmem
  have := hb.le
  omega

theorem Rises.eq_of_isLast {init after : OffsetMap} {c : Breakpoint}
    (h : Rises (init ++ [c] ++ after)) (hcx : c.source < x) (hafter : ∀ d ∈ after, x < d.source)
    (hb : IsLast (origin :: (init ++ [c] ++ after)) x b) : b = c := by
  have hle : c.source ≤ b.source := by
    refine Nat.le_of_not_lt fun hlt => ?_
    have := hb.next c (by simp) hlt
    omega
  have hpairwise : (origin :: init ++ [c]).Pairwise Before := by
    have := h.pairwise
    rw [← List.cons_append, ← List.cons_append, List.pairwise_append] at this
    exact this.1
  have hbc : b.Before c := by
    have hmem := hb.mem
    rw [← List.cons_append, List.mem_append, or_iff_left (hb.notMem hafter), ← List.cons_append,
      List.mem_append, List.mem_singleton] at hmem
    rcases hmem with hmem | rfl
    · exact (List.pairwise_append.1 hpairwise).2.2 b hmem c (List.mem_singleton_self c)
    · exact .inl rfl
  exact hbc.resolve_right (by omega)

theorem Rises.toTarget_eq (h : map.Rises) (hb : IsLast (origin :: map) x b)
    (hmax : b.target + (x - b.source) ≤ maxOffset) :
    map.toTarget x = b.target + (x - b.source) := by
  -- The search finds a breakpoint at `x`, or the place between two of them.
  by_cases hx : ∃ c ∈ map, c.source = x
  · obtain ⟨c, hc, rfl⟩ := hx
    have hmem := List.mem_cons_of_mem origin hc
    have heq : b.source = c.source :=
      Nat.le_antisymm hb.le (Nat.le_of_not_lt fun hlt => Nat.lt_irrefl _ (hb.next c hmem hlt))
    obtain rfl := h.eq_of_source hb.mem hmem heq
    rw [h.toTarget_of_mem hc, Nat.sub_self, Nat.add_zero]
  · obtain ⟨before, after, rfl, hbefore, hafter⟩ :=
      h.exists_split fun c hc heq => hx ⟨c, hc, heq⟩
    rw [toTarget_append hbefore hafter, between]
    cases hlast : before.getLast? with
    | some c =>
      obtain ⟨init, rfl⟩ := List.getLast?_eq_some_iff.1 hlast
      obtain rfl := h.eq_of_isLast (hbefore c (by simp)) hafter hb
      exact Nat.min_eq_left hmax
    | none =>
      obtain rfl := List.getLast?_eq_none_iff.1 hlast
      obtain rfl : b = origin := (List.mem_cons.1 hb.mem).resolve_right (hb.notMem hafter)
      have hstart : origin.target + (x - origin.source) = x := Nat.zero_add x
      rw [hstart]
      cases hhead : after.head? with
      | none => rfl
      | some c =>
        have hcx := hafter c (List.mem_of_mem_head? hhead)
        have hlevel := h.level c hhead
        exact Nat.min_eq_left (by omega)

/-- `x` and `y` are equally far past the last of some breakpoints before them. -/
def Together (bs : OffsetMap) (x y : Nat) : Prop :=
  ∃ b ∈ bs, ∃ k, x = b.source + k ∧ y = b.target + k ∧
    ∀ c ∈ bs, b.source < c.source → x < c.source ∧ y < c.target

theorem together_cons {a : Breakpoint} {bs : OffsetMap} {k : Nat}
    (h : ∀ c ∈ bs, a.source < c.source → a.source + k < c.source ∧ a.target + k < c.target) :
    Together (a :: bs) (a.source + k) (a.target + k) := by
  refine ⟨a, List.mem_cons_self, k, rfl, rfl, ?_⟩
  rw [List.forall_mem_cons]
  exact ⟨fun hlt => absurd hlt (Nat.lt_irrefl _), h⟩

theorem Together.cons {a : Breakpoint} {bs : OffsetMap} (ha : ∀ c ∈ bs, a.Leads c)
    (h : Together bs x y) : Together (a :: bs) x y := by
  obtain ⟨c, hc, k, hx, hy, hnext⟩ := h
  refine ⟨c, List.mem_cons_of_mem _ hc, k, hx, hy, ?_⟩
  rw [List.forall_mem_cons]
  refine ⟨?_, hnext⟩
  intro hlt
  rcases ha c hc with rfl | hlead
  · exact absurd hlt (Nat.lt_irrefl _)
  · omega

theorem Together.shift {a b : Breakpoint} {bs : OffsetMap} {n : Nat}
    (hsource : b.source = a.source + n) (htarget : b.target = a.target + n)
    (hb : ∀ c ∈ bs, b.Leads c) (h : Together (b :: bs) x y) : Together (a :: bs) x y := by
  have hrise : ∀ c ∈ bs, c ≠ b → b.source < c.source := by
    intro c hc hne
    rcases hb c hc with rfl | hlead
    · exact absurd rfl hne
    · omega
  obtain ⟨c, hc, k, hx, hy, hnext⟩ := h
  rw [List.forall_mem_cons] at hnext
  -- If the last breakpoint is `b` itself, `a` takes its place, `n` further back.
  by_cases hmem : c ∈ bs
  · refine ⟨c, List.mem_cons_of_mem _ hmem, k, hx, hy, ?_⟩
    rw [List.forall_mem_cons]
    refine ⟨?_, hnext.2⟩
    rcases hb c hmem with rfl | hlead <;> omega
  · obtain rfl : c = b := (List.mem_cons.1 hc).resolve_right hmem
    refine ⟨a, List.mem_cons_self, n + k, by omega, by omega, ?_⟩
    rw [List.forall_mem_cons]
    refine ⟨by omega, ?_⟩
    intro d hd _
    refine hnext.2 d hd (hrise d hd ?_)
    rintro rfl
    exact hmem hd

theorem Together.swap (hmap : map.Rises) (h : Together (origin :: map) x y) :
    Together (origin :: map.swap) y x := by
  obtain ⟨b, hb, k, hx, hy, hnext⟩ := h
  have hb' : b.swap ∈ OffsetMap.swap (origin :: map) := mem_swap.2 hb
  refine ⟨b.swap, hb', k, hy, hx, ?_⟩
  intro c hc hlt
  have hc' : c.swap ∈ origin :: map := mem_swap.1 hc
  have hlt' : b.source < c.swap.source := hmap.source_lt hb hc' hlt
  exact (hnext c.swap hc' hlt').symm

theorem Together.toTarget (hmap : map.Rises) (h : Together (origin :: map) x y)
    (hy : y ≤ maxOffset) : map.toTarget x = y := by
  obtain ⟨b, hb, k, rfl, rfl, hnext⟩ := h
  have hlast : IsLast (origin :: map) (b.source + k) b :=
    ⟨hb, Nat.le_add_right _ _, fun c hc hlt => (hnext c hc hlt).1⟩
  rw [hmap.toTarget_eq hlast (by rwa [Nat.add_sub_cancel_left]), Nat.add_sub_cancel_left]

theorem Together.toSource (hmap : map.Rises) (h : Together (origin :: map) x y)
    (hx : x ≤ maxOffset) : map.toSource y = x :=
  (h.swap hmap).toTarget hmap.swap hx

theorem Together.lt (hmap : map.Rises) {x' y' : Nat} (h : Together (origin :: map) x y)
    (h' : Together (origin :: map) x' y') (hlt : y < y') : x < x' := by
  obtain ⟨b, hb, k, rfl, rfl, hnext⟩ := h
  obtain ⟨b', hb', k', rfl, rfl, hnext'⟩ := h'
  rcases Nat.lt_trichotomy b.source b'.source with hbb | hbb | hbb
  · have := hnext b' hb' hbb
    omega
  · obtain rfl := hmap.eq_of_source hb hb' hbb
    omega
  · have := hnext' b hb hbb
    omega

theorem Together.le (hmap : map.Rises) {x' y' : Nat} (h : Together (origin :: map) x y)
    (h' : Together (origin :: map) x' y') (hle : y ≤ y') : x ≤ x' := by
  refine Nat.le_of_not_lt fun hlt => ?_
  have := (h'.swap hmap).lt hmap.swap (h.swap hmap) hlt
  omega

namespace Condenses

theorem target_le (h : map.Condenses) (hb : b ∈ origin :: map) : b.target ≤ b.source := by
  rcases List.mem_cons.1 hb with rfl | hb
  · exact Nat.le_refl _
  · rcases (List.pairwise_cons.1 h.pairwise).1 b hb with rfl | hlead
    · exact Nat.le_refl _
    · simp only [origin, identity] at hlead
      omega

theorem target_sub_le (h : map.Condenses) {a b : Breakpoint} (ha : a ∈ origin :: map)
    (hb : b ∈ origin :: map) (hlt : a.source < b.source) :
    a.target < b.target ∧ b.target - a.target ≤ b.source - a.source := by
  rcases or_of_pairwise Leads.refl h.pairwise ha hb with hab | hba
  · rcases hab with rfl | hab
    · omega
    · exact hab
  · rcases hba with rfl | hba
    · omega
    · omega

theorem target_le_target (h : map.Condenses) {a b : Breakpoint} (ha : a ∈ origin :: map)
    (hb : b ∈ origin :: map) (hle : a.source ≤ b.source) : a.target ≤ b.target := by
  rcases Nat.lt_or_eq_of_le hle with hlt | heq
  · exact Nat.le_of_lt (h.target_sub_le ha hb hlt).1
  · exact Nat.le_of_eq (congrArg target (h.rises.eq_of_source ha hb heq))

theorem le_of_together (h : map.Condenses) (hxy : Together (origin :: map) x y) : y ≤ x := by
  obtain ⟨b, hb, k, rfl, rfl, _⟩ := hxy
  have := h.target_le hb
  omega

theorem toTarget_eq (h : map.Condenses) (hb : IsLast (origin :: map) x b) (hx : x ≤ maxOffset) :
    map.toTarget x = b.target + (x - b.source) := by
  apply h.rises.toTarget_eq hb
  have htarget := h.target_le hb.mem
  have hle := hb.le
  omega

/-- Each offset of the target belongs to an offset of the source. -/
theorem exists_together (h : map.Condenses) (y : Nat) : ∃ x, Together (origin :: map) x y := by
  obtain ⟨c, hc⟩ := exists_isLast_origin map.swap y
  have hmem : c.swap ∈ origin :: map := mem_swap.1 hc.mem
  have hle : c.swap.target ≤ y := hc.le
  refine ⟨c.swap.source + (y - c.swap.target), c.swap, hmem, y - c.swap.target, rfl, by omega, ?_⟩
  intro d hd hlt
  obtain ⟨htarget, hshrink⟩ := h.target_sub_le hmem hd hlt
  have hswap : d.swap ∈ OffsetMap.swap (origin :: map) := mem_swap.2 hd
  have hnext : y < d.target := hc.next d.swap hswap htarget
  omega

theorem le_toTarget (h : map.Condenses) (hb : IsLast (origin :: map) x b)
    (hnext : ∀ c ∈ origin :: map, b.source < c.source → b.target + (x - b.source) ≤ c.target)
    (hxz : x ≤ z) (hz : z ≤ maxOffset) : b.target + (x - b.source) ≤ map.toTarget z := by
  obtain ⟨c, hc⟩ := exists_isLast_origin map z
  rw [h.toTarget_eq hc hz]
  have hle := hb.le
  have hbc : b.source ≤ c.source := by
    refine Nat.le_of_not_lt fun hlt => ?_
    have := hc.next b hb.mem hlt
    omega
  rcases Nat.lt_or_eq_of_le hbc with hlt | heq
  · have := hnext c hc.mem hlt
    omega
  · obtain rfl := h.rises.eq_of_source hb.mem hc.mem heq
    omega

end Condenses

end OffsetMap

end Recognition
