import Recognition.Proofs.Grammar.Arrangement

namespace Recognition

/-- What begins in a text that ends at `e` ends there too, and not before it begins. -/
def Attempt.InRange (e : Nat) (a : Attempt) : Prop :=
  ∀ ⦃pos m⦄, pos ≤ e → a pos = some m → m.span.start = pos ∧ pos ≤ m.span.stop ∧ m.span.stop ≤ e

/-- The match is what the attempt gives where the match begins. -/
def Attempt.Gives (a : Attempt) (m : Match) : Prop := a m.span.start = some m

namespace Match

/-- The first match begins at `start`, each other where the one before ended, and the last ends at
`stop`. -/
def Tiles (stop : Nat) : (start : Nat) → List Match → Prop
  | start, [] => start = stop
  | start, m :: ms => m.span.start = start ∧ Tiles stop m.span.stop ms

theorem Tiles.bounds {e start stop : Nat} {ms : List Match} (h : Tiles stop start ms)
    (hstart : start ≤ e) (hgiven : ∀ m ∈ ms, ∃ a : Attempt, a.InRange e ∧ a.Gives m) :
    start ≤ stop ∧ stop ≤ e ∧
      ∀ m ∈ ms, start ≤ m.span.start ∧ m.span.start ≤ m.span.stop ∧ m.span.stop ≤ stop := by
  induction ms generalizing start with
  | nil =>
    obtain rfl : start = stop := h
    exact ⟨Nat.le_refl _, hstart, by simp⟩
  | cons m ms ih =>
    obtain ⟨rfl, hrest⟩ := h
    obtain ⟨a, ha, hm⟩ := hgiven m List.mem_cons_self
    obtain ⟨-, hle, hstop⟩ := ha hstart hm
    obtain ⟨hle', hstop', hin⟩ := ih hrest hstop fun x hx => hgiven x (List.mem_cons_of_mem _ hx)
    refine ⟨Nat.le_trans hle hle', hstop', ?_⟩
    intro x hx
    rcases List.mem_cons.1 hx with rfl | hx
    · exact ⟨Nat.le_refl _, hle, hle'⟩
    · have := hin x hx
      omega

theorem tiles_of_chain {e pos : Nat} {as : List Attempt} {ms : List Match}
    (has : ∀ a ∈ as, a.InRange e) (hpos : pos ≤ e) (h : chain as pos = some ms) :
    List.Forall₂ Attempt.Gives as ms ∧ Tiles (stopOf pos ms) pos ms := by
  induction as generalizing pos ms with
  | nil =>
    obtain rfl : [] = ms := by simpa [chain] using h
    exact ⟨.nil, rfl⟩
  | cons a as ih =>
    obtain ⟨m, ms', hm, hms, rfl⟩ := chain_cons_eq_some_iff.1 h
    obtain ⟨rfl, -, hstop⟩ := has a List.mem_cons_self hpos hm
    obtain ⟨hgives, htiles⟩ := ih (fun b hb => has b (List.mem_cons_of_mem _ hb)) hstop hms
    exact ⟨.cons hm hgives, rfl, by rwa [stopOf_cons]⟩

theorem exists_of_branch {as : List Attempt} {start : Nat} {m : Match}
    (h : branch as start = some m) :
    ∃ i a c, as[i]? = some a ∧ a start = some c ∧ m = ⟨⟨start, c.span.stop⟩, some i, [c]⟩ := by
  obtain ⟨⟨a, i⟩, hmem, ha⟩ := List.exists_of_findSome?_eq_some h
  obtain ⟨c, hc, rfl⟩ := Option.map_eq_some_iff.1 ha
  exact ⟨i, a, c, List.mem_zipIdx_iff_getElem?.1 hmem, hc, rfl⟩

theorem tiles_of_permutation {e start : Nat} {as : List Attempt} {m : Match}
    (has : ∀ a ∈ as, a.InRange e) (hstart : start ≤ e) (h : permutation as start = some m) :
    m.span.start = start ∧ List.Forall₂ Attempt.Gives as m.children ∧
      ∃ ms, ms.Perm m.children ∧ Tiles m.span.stop start ms := by
  obtain ⟨-, hlength, order, hperm, hsequence, -⟩ := permutation_eq_some_iff.1 h
  have hperm' : order.Perm (List.range m.children.length) := hlength ▸ hperm
  obtain ⟨ms, hms, hjoined⟩ := Option.map_eq_some_iff.1 hsequence
  obtain ⟨hspan, -, rfl⟩ := Match.mk.inj hjoined
  have hin : ∀ a ∈ atPlaces order as, a.InRange e := by
    intro a ha
    exact has a ((perm_atPlaces hperm).subset ha)
  obtain ⟨hgives, htiles⟩ := tiles_of_chain hin hstart hms
  rw [← hspan]
  exact ⟨rfl, forall₂_of_atPlaces hperm hperm' hgives, _, perm_atPlaces hperm', htiles⟩

/-- A run of the repetition loop to its end, when `count` repetitions are made and the next is tried
at `pos`. Only an empty match stops it early. -/
inductive Repeats (b : Bounds) (a : Attempt) : (count pos : Nat) → List Match → Prop
  | enough {count pos} (hwants : b.wants count = false) : Repeats b a count pos []
  | failed {count pos} (hwants : b.wants count = true) (hnone : a pos = none) :
    Repeats b a count pos []
  | empty {count pos m} (hwants : b.wants count = true) (hsome : a pos = some m)
    (hempty : m.span.stop = pos) : Repeats b a count pos [m]
  | more {count pos m ms} (hwants : b.wants count = true) (hsome : a pos = some m)
    (hmore : m.span.stop ≠ pos) (hrest : Repeats b a (count + 1) m.span.stop ms) :
    Repeats b a count pos (m :: ms)

theorem repeats_repetitions {b : Bounds} {a : Attempt} {e : Nat} (ha : a.InRange e)
    {count pos : Nat} (hpos : pos ≤ e) : Repeats b a count pos (repetitions b a e count pos) := by
  fun_induction repetitions b a e count pos with
  | case1 count pos hwants hnone => exact .failed hwants hnone
  | case2 count pos hwants m hsome hmore ih =>
    exact .more hwants hsome (Nat.ne_of_gt hmore.1) (ih hmore.2)
  | case3 count pos hwants m hsome hdone =>
    obtain ⟨-, hle, hstop⟩ := ha hpos hsome
    exact .empty hwants hsome (by omega)
  | case4 count pos hwants => exact .enough (by simpa using hwants)

theorem Repeats.tiles {b : Bounds} {a : Attempt} {e count pos : Nat} {ms : List Match}
    (h : Repeats b a count pos ms) (ha : a.InRange e) (hpos : pos ≤ e) :
    (∀ m ∈ ms, a.Gives m) ∧ Tiles (stopOf pos ms) pos ms := by
  induction h with
  | enough => exact ⟨by simp, rfl⟩
  | failed => exact ⟨by simp, rfl⟩
  | empty hwants hsome hempty =>
    obtain ⟨rfl, -, -⟩ := ha hpos hsome
    exact ⟨by simpa [Attempt.Gives] using hsome, rfl, rfl⟩
  | more hwants hsome hmore hrest ih =>
    obtain ⟨rfl, -, hstop⟩ := ha hpos hsome
    obtain ⟨hgives, htiles⟩ := ih hstop
    refine ⟨?_, rfl, by rwa [stopOf_cons]⟩
    intro x hx
    rcases List.mem_cons.1 hx with rfl | hx
    · exact hsome
    · exact hgives x hx

end Match

end Recognition
