import Recognition.Proofs.Grammar.Derivation
import Recognition.Proofs.Grammar.Extension

namespace Recognition

namespace Match

section Arranged

variable {as : List Attempt} {bs : List (Attempt × Nat)} {pos : Nat}

/-- If no two attempts fit at one place, each attempt of a chain is the first that fits there. -/
theorem exists_arranges_of_chain {e : Nat} {xs : List Match} (hperm : as.Perm (bs.map Prod.fst))
    (has : ∀ a ∈ as, a.InRange e) (hpos : pos ≤ e)
    (halone : ∀ a ∈ as, ∀ b ∈ as, a ≠ b → ∀ p, pos ≤ p → p ≤ e → a p = none ∨ b p = none)
    (h : chain as pos = some xs) : ∃ ms, Arranges bs pos ms ∧ ms.map Prod.fst = xs := by
  induction as generalizing bs pos xs with
  | nil =>
    obtain rfl := List.map_eq_nil_iff.1 hperm.nil_eq.symm
    obtain rfl := Option.some.inj h
    exact ⟨[], .nil, rfl⟩
  | cons a as ih =>
    obtain ⟨m, rest, hm, hrest, rfl⟩ := chain_cons_eq_some_iff.1 h
    cases hfit : firstFit pos bs with
    | none =>
      obtain ⟨b, hb, rfl⟩ := List.mem_map.1 (hperm.subset List.mem_cons_self)
      cases hm.symm.trans (firstFit_eq_none_iff.1 hfit b hb)
    | some fit =>
      obtain ⟨⟨m', i⟩, unused⟩ := fit
      obtain ⟨earlier, b, later, rfl, rfl, hb, hfail⟩ := firstFit_eq_some_iff.1 hfit
      have hperm' := hperm.trans (List.perm_middle.map Prod.fst)
      -- What fits first is what the chain begins with, as no two of them match at one place.
      have hsame : a = b := by
        by_contra hne
        have hmem : b ∈ a :: as := hperm'.symm.subset List.mem_cons_self
        rcases halone a List.mem_cons_self b hmem hne pos (Nat.le_refl _) hpos with hnone | hnone
        · cases hm.symm.trans hnone
        · cases hb.symm.trans hnone
      obtain rfl := hsame
      obtain rfl := Option.some.inj (hm.symm.trans hb)
      obtain ⟨-, hle, hstop⟩ := has a List.mem_cons_self hpos hm
      obtain ⟨ms, hms, rfl⟩ := ih hperm'.cons_inv (fun b hb => has b (List.mem_cons_of_mem _ hb))
        hstop (fun b hb c hc hne p hp => halone b (List.mem_cons_of_mem _ hb) c
          (List.mem_cons_of_mem _ hc) hne p (Nat.le_trans hle hp)) hrest
      exact ⟨(m, i) :: ms, .cons hfail hm hms, rfl⟩

theorem permutation_of_sequence {e : Nat} {as' : List Attempt} {m : Match} (hperm : as'.Perm as)
    (has : ∀ a ∈ as', a.InRange e) (hpos : pos ≤ e)
    (halone : ∀ a ∈ as', ∀ b ∈ as', a ≠ b → ∀ p, pos ≤ p → p ≤ e → a p = none ∨ b p = none)
    (h : sequence as' pos = some m) : (permutation as pos).map Match.span = some m.span := by
  obtain ⟨xs, hxs, rfl⟩ := Option.map_eq_some_iff.1 h
  rw [← List.zipIdx_map_fst 0 as] at hperm
  obtain ⟨ms, hms, rfl⟩ := exists_arranges_of_chain hperm has hpos halone hxs
  rw [permutation, arrange_eq_some_iff.2 hms]
  rfl

theorem stopOf_take_le {e : Nat} {xs : List Match} (has : ∀ a ∈ as, a.InRange e) (hpos : pos ≤ e)
    (h : chain as pos = some xs) (k : Nat) : stopOf pos (xs.take k) ≤ e := by
  induction as generalizing pos xs k with
  | nil =>
    obtain rfl := Option.some.inj h
    rwa [List.take_nil]
  | cons a as ih =>
    obtain ⟨m, rest, hm, hrest, rfl⟩ := chain_cons_eq_some_iff.1 h
    cases k with
    | zero => exact hpos
    | succ k =>
      rw [List.take_succ_cons, stopOf_cons]
      obtain ⟨-, -, hstop⟩ := has a List.mem_cons_self hpos hm
      exact ih (fun b hb => has b (List.mem_cons_of_mem _ hb)) hstop hrest k

end Arranged

end Match

namespace Grammar

/-- What the rules match in this order, as a sequence that is added to the grammar. -/
def matchInOrder? (g : Grammar) (rules : List Nat) (src : Source) (start : Nat) (stop : Option Nat)
    (flags : Flags) : Option Match :=
  let (g', id) := g.add (.sequence rules)
  g'.match? id src start stop flags

/-- Of the rules that are left in each round, the one taken is the first that matches there. -/
def FirstFits (g : Grammar) (rules : List Nat) (src : Source) (start : Nat) (stop : Option Nat)
    (flags : Flags) (order : List Nat) (ms : List Match) : Prop :=
  Match.FirstFits (rules.map fun rule pos => g.match? rule src pos stop flags).zipIdx start order ms

variable {g : Grammar} {src : Source} {start : Nat} {stop : Option Nat} {flags : Flags} {id : Nat}
  {rules order : List Nat} {ms : List Match}

theorem match?_of_not_le (h : ¬ start ≤ src.limit stop) :
    g.match? id src start stop flags = none := by
  rw [match?, if_neg h]

theorem firstFits_iff (h : ∀ k, Match.stopOf start (ms.take k) ≤ src.limit stop) :
    g.FirstFits rules src start stop flags order ms ↔
      Match.FirstFits (rules.map (g.attempt src flags (src.limit stop))).zipIdx start order ms := by
  simp only [FirstFits, Match.FirstFits, List.zipIdx_map, List.forall_mem_map, Prod.map_fst,
    Prod.map_snd, match?, if_pos (h _)]

theorem map_part (hrules : ∀ rule ∈ rules, rule < id) (src : Source) (flags : Flags) (e : Nat) :
    rules.map (g.part src flags e id) = rules.map (g.attempt src flags e) := by
  apply List.map_congr_left
  intro rule hrule
  rw [part, if_pos (hrules rule hrule)]

theorem lt_size_of_mem {node : Node} (hnode : g.nodes[id]? = some node)
    (hrules : ∀ rule ∈ rules, rule < id) : ∀ rule ∈ rules, rule < g.size := by
  intro rule hrule
  exact Nat.lt_trans (hrules rule hrule) (Array.getElem?_eq_some_iff.1 hnode).1

theorem match?_permutation (hnode : g.nodes[id]? = some (.permutation rules))
    (hrules : ∀ rule ∈ rules, rule < id) (hstart : start ≤ src.limit stop) :
    g.match? id src start stop flags =
      Match.permutation (rules.map (g.attempt src flags (src.limit stop))) start := by
  rw [match?, if_pos hstart, attempt_eq hnode, ← map_part hrules]
  rfl

theorem matchInOrder?_eq (hrules : ∀ rule ∈ rules, rule < g.size)
    (hstart : start ≤ src.limit stop) :
    g.matchInOrder? rules src start stop flags =
      Match.sequence (rules.map (g.attempt src flags (src.limit stop))) start := by
  have hnode : (g.add (.sequence rules)).1.nodes[g.size]? = some (.sequence rules) :=
    Array.getElem?_push_size
  have hadded : rules.map ((g.add (.sequence rules)).1.attempt src flags (src.limit stop)) =
      rules.map (g.attempt src flags (src.limit stop)) := by
    apply List.map_congr_left
    intro rule hrule
    exact (g.extends_add _).attempt_eq (hrules rule hrule) src flags _
  rw [← hadded, ← map_part hrules]
  change (g.add (.sequence rules)).1.match? g.size src start stop flags = _
  rw [match?, if_pos hstart, attempt_eq hnode]
  rfl

theorem match?_permutation_eq_some_iff (hnode : g.nodes[id]? = some (.permutation rules))
    (hrules : ∀ rule ∈ rules, rule < id) {m : Match} :
    g.match? id src start stop flags = some m ↔
      m.hit = none ∧ m.children.length = rules.length ∧
        ∃ order : List Nat, order.Perm (List.range rules.length) ∧
          g.matchInOrder? (Match.atPlaces order rules) src start stop flags =
            some ⟨m.span, none, Match.atPlaces order m.children⟩ ∧
          g.FirstFits rules src start stop flags order (Match.atPlaces order m.children) := by
  by_cases hstart : start ≤ src.limit stop
  · rw [match?_permutation hnode hrules hstart, Match.permutation_eq_some_iff, List.length_map]
    refine and_congr_right fun _ => and_congr_right fun _ => exists_congr fun order =>
      and_congr_right fun hperm => ?_
    have hbefore : ∀ rule ∈ Match.atPlaces order rules, rule < g.size := by
      intro rule hrule
      exact lt_size_of_mem hnode hrules rule ((Match.perm_atPlaces hperm).subset hrule)
    rw [matchInOrder?_eq hbefore hstart, Match.atPlaces_map]
    refine and_congr_right fun hsequence => (firstFits_iff ?_).symm
    obtain ⟨xs, hxs, hjoined⟩ := Option.map_eq_some_iff.1 hsequence
    obtain ⟨-, -, rfl⟩ := Match.mk.inj hjoined
    refine Match.stopOf_take_le (List.forall_mem_map.2 ?_) hstart hxs
    intro rule _
    exact g.inRange_attempt src flags _ rule
  · rw [match?_of_not_le hstart]
    refine iff_of_false (by simp) ?_
    rintro ⟨-, -, order, -, hsequence, -⟩
    cases (match?_of_not_le hstart).symm.trans hsequence

/-- No two different rules of the list match at one place of the text, from `start` on. -/
def MatchApart (g : Grammar) (rules : List Nat) (src : Source) (start : Nat) (stop : Option Nat)
    (flags : Flags) : Prop :=
  ∀ a ∈ rules, ∀ b ∈ rules, a ≠ b → ∀ pos, start ≤ pos → pos ≤ src.limit stop →
    g.match? a src pos stop flags = none ∨ g.match? b src pos stop flags = none

theorem match?_permutation_of_matchInOrder? (hnode : g.nodes[id]? = some (.permutation rules))
    (hrules : ∀ rule ∈ rules, rule < id) (hapart : g.MatchApart rules src start stop flags)
    {rules' : List Nat} (hperm : rules'.Perm rules) {m : Match}
    (hm : g.matchInOrder? rules' src start stop flags = some m) :
    (g.match? id src start stop flags).map Match.span = some m.span := by
  have hstart : start ≤ src.limit stop := by
    by_contra hstart
    cases (match?_of_not_le hstart).symm.trans hm
  have hbefore : ∀ rule ∈ rules', rule < g.size := by
    intro rule hrule
    exact lt_size_of_mem hnode hrules rule (hperm.subset hrule)
  rw [matchInOrder?_eq hbefore hstart] at hm
  rw [match?_permutation hnode hrules hstart]
  refine Match.permutation_of_sequence (hperm.map _) (List.forall_mem_map.2 ?_) hstart ?_ hm
  · intro rule _
    exact g.inRange_attempt src flags _ rule
  · simp only [List.forall_mem_map]
    intro a ha b hb hne pos hle hpos
    have hdistinct : a ≠ b := fun h => hne (by rw [h])
    have hfails := hapart a (hperm.subset ha) b (hperm.subset hb) hdistinct pos hle hpos
    simpa only [match?, if_pos hpos] using hfails

/-- A rule that matches others in any order matches as one sequence of them, in which each is the
first that matches of those left over. If no two of them match at one place, it matches whenever a
sequence of them does. -/
theorem match?_permutation_iff (hnode : g.nodes[id]? = some (.permutation rules))
    (hrules : ∀ rule ∈ rules, rule < id) (src : Source) (start : Nat) (stop : Option Nat)
    (flags : Flags) :
    (∀ m, g.match? id src start stop flags = some m ↔
        m.hit = none ∧ m.children.length = rules.length ∧
          ∃ order : List Nat, order.Perm (List.range rules.length) ∧
            g.matchInOrder? (Match.atPlaces order rules) src start stop flags =
              some ⟨m.span, none, Match.atPlaces order m.children⟩ ∧
            g.FirstFits rules src start stop flags order (Match.atPlaces order m.children)) ∧
      (g.MatchApart rules src start stop flags →
        ∀ span, (g.match? id src start stop flags).map Match.span = some span ↔
          ∃ rules', rules'.Perm rules ∧
            (g.matchInOrder? rules' src start stop flags).map Match.span = some span) := by
  refine ⟨fun m => match?_permutation_eq_some_iff hnode hrules, ?_⟩
  intro hapart span
  constructor
  · intro h
    obtain ⟨m, hm, rfl⟩ := Option.map_eq_some_iff.1 h
    obtain ⟨-, -, order, hperm, hsequence, -⟩ := (match?_permutation_eq_some_iff hnode hrules).1 hm
    exact ⟨_, Match.perm_atPlaces hperm, by rw [hsequence, Option.map_some]⟩
  · rintro ⟨rules', hperm, h⟩
    obtain ⟨m, hm, rfl⟩ := Option.map_eq_some_iff.1 h
    exact match?_permutation_of_matchInOrder? hnode hrules hapart hperm hm

/-- The rules match from last to first, and the end of the line takes nothing. -/
theorem match?_permutation_iff_reversed :
    let g : Grammar :=
      ⟨.ascii, #[.char ['a'] false, .char ['b'] false, .lineEnd false, .permutation [2, 0, 1]]⟩
    let src := Source.utf8 ['b', 'a']
    g.nodes[3]? = some (.permutation [2, 0, 1]) ∧ (∀ rule ∈ [2, 0, 1], rule < 3) ∧
      g.MatchApart [2, 0, 1] src 0 none .none ∧
      (g.match? 3 src 0 none .none).map Match.span = some ⟨0, 2⟩ ∧
      ∃ order : List Nat, order.Perm (List.range 3) ∧
        g.matchInOrder? (Match.atPlaces order [2, 0, 1]) src 0 none .none =
          some ⟨⟨0, 2⟩, none, Match.atPlaces order [.leaf 2 2, .leaf 1 2, .leaf 0 1]⟩ ∧
        g.FirstFits [2, 0, 1] src 0 none .none order
          (Match.atPlaces order [.leaf 2 2, .leaf 1 2, .leaf 0 1]) := by
  intro g src
  have hnode : g.nodes[3]? = some (.permutation [2, 0, 1]) := rfl
  have hrules : ∀ rule ∈ [2, 0, 1], rule < 3 := by decide
  have hapart : g.MatchApart [2, 0, 1] src 0 none .none := by
    have hfails₀ : g.match? 0 src 0 none .none = none ∧ g.match? 2 src 0 none .none = none := by
      constructor <;> decide +kernel
    have hfails₁ : g.match? 1 src 1 none .none = none ∧ g.match? 2 src 1 none .none = none := by
      constructor <;> decide +kernel
    have hfails₂ : g.match? 0 src 2 none .none = none ∧ g.match? 1 src 2 none .none = none := by
      constructor <;> decide +kernel
    intro a ha b hb hne pos _ hpos
    have hpos : pos ≤ 2 := hpos
    simp only [List.mem_cons, List.not_mem_nil, or_false] at ha hb
    obtain rfl | rfl | rfl : pos = 0 ∨ pos = 1 ∨ pos = 2 := by omega
    all_goals grind
  obtain ⟨hiff, hspan⟩ := match?_permutation_iff hnode hrules src 0 none .none
  have hmatch : g.match? 3 src 0 none .none =
      some ⟨⟨0, 2⟩, none, [.leaf 2 2, .leaf 1 2, .leaf 0 1]⟩ := by
    have harrange : Match.arrange ([2, 0, 1].map (g.attempt src .none 2)).zipIdx 0 =
        some [(.leaf 0 1, 2), (.leaf 1 2, 1), (.leaf 2 2, 0)] := by decide +kernel
    have hchildren : [Match.leaf 2 2, .leaf 1 2, .leaf 0 1] =
        ([(.leaf 0 1, 2), (.leaf 1 2, 1), (.leaf 2 2, 0)].mergeSort fun m n => m.2 ≤ n.2).map
          Prod.fst := (Match.eq_mergeSort_iff (by decide)).2 (by decide)
    have hlimit : src.limit none = 2 := by decide
    rw [match?_permutation hnode hrules (Nat.zero_le _), hlimit, Match.permutation, harrange,
      hchildren]
    rfl
  obtain ⟨-, -, horder⟩ := (hiff _).1 hmatch
  exact ⟨hnode, hrules, hapart, (hspan hapart _).2 ⟨[1, 0, 2], by decide, by decide +kernel⟩,
    horder⟩

/-- The shorter text is taken where only the longer one leaves a match for the other. -/
example :
    let g : Grammar :=
      ⟨.ascii, #[.char ['a'] false, .char ['b'] false, .sequence [0, 1], .permutation [0, 2]]⟩
    let src := Source.utf8 ['a', 'b', 'a']
    g.match? 3 src 0 none .none = none ∧
      (g.matchInOrder? [2, 0] src 0 none .none).map Match.span = some ⟨0, 3⟩ := by
  constructor <;> decide +kernel

end Grammar

end Recognition
