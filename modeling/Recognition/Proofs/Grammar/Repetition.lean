import Recognition.Proofs.Grammar.Derivation

namespace Recognition

namespace Match

def EndsEmpty (ms : List Match) : Prop := ∃ m, ms.getLast? = some m ∧ m.span.isEmpty = true

/-- What a repetition collects from `start` on in a text that ends at `e`. Nothing is taken back,
and past the end nothing is tried. -/
structure Collects (b : Bounds) (a : Attempt) (e start : Nat) (ms : List Match) : Prop where
  start_le : start ≤ e
  /-- Each match is what the attempt gives where the one before ended. -/
  chained : ∀ i (hi : i < ms.length), a (stopOf start (ms.take i)) = some ms[i]
  length_le : ms.length ≤ b.max
  length_le_of_lazy : b.greedy = false → ms.length ≤ b.min
  /-- Only the last match may be empty. -/
  nonempty : ∀ m ∈ ms.dropLast, m.span.isEmpty = false
  stopped : ms.length = b.max ∨ (b.greedy = false ∧ b.min ≤ ms.length) ∨ EndsEmpty ms ∨
    a (stopOf start ms) = none

section

variable {b : Bounds} {a : Attempt} {e count pos start : Nat} {ms ms' : List Match}

theorem EndsEmpty.cons {m : Match} (h : EndsEmpty ms) : EndsEmpty (m :: ms) := by
  obtain ⟨x, hx, hempty⟩ := h
  exact ⟨x, by simp [List.getLast?_cons, hx], hempty⟩

theorem Repeats.chained (h : Repeats b a count pos ms) :
    ∀ i (hi : i < ms.length), a (stopOf pos (ms.take i)) = some ms[i] := by
  induction h with
  | enough | failed => simp
  | empty hwants hsome hempty =>
    intro i hi
    obtain rfl : i = 0 := by simpa using hi
    exact hsome
  | more hwants hsome hmore hrest ih =>
    intro i hi
    cases i with
    | zero => exact hsome
    | succ i =>
      rw [List.take_succ_cons, stopOf_cons]
      exact ih i (by simpa using hi)

theorem Repeats.wants_of_lt (h : Repeats b a count pos ms) :
    ∀ i < ms.length, b.wants (count + i) = true := by
  induction h with
  | enough | failed => simp
  | empty hwants hsome hempty =>
    intro i hi
    obtain rfl : i = 0 := by simpa using hi
    exact hwants
  | more hwants hsome hmore hrest ih =>
    intro i hi
    cases i with
    | zero => exact hwants
    | succ i =>
      rw [Nat.add_comm i 1, ← Nat.add_assoc]
      exact ih i (by simpa using hi)

theorem Repeats.nonempty (h : Repeats b a count pos ms) (ha : a.InRange e) (hpos : pos ≤ e) :
    ∀ m ∈ ms.dropLast, m.span.isEmpty = false := by
  induction h with
  | enough | failed | empty => simp
  | @more _ _ _ ms hwants hsome hmore hrest ih =>
    obtain ⟨rfl, -, hstop⟩ := ha hpos hsome
    intro x hx
    cases ms with
    | nil => simp at hx
    | cons m' ms =>
      rcases List.mem_cons.1 hx with rfl | hx
      · simpa [Span.isEmpty] using Ne.symm hmore
      · exact ih hstop x hx

theorem Repeats.stopped (h : Repeats b a count pos ms) (ha : a.InRange e) (hpos : pos ≤ e) :
    b.wants (count + ms.length) = false ∨ EndsEmpty ms ∨ a (stopOf pos ms) = none := by
  induction h with
  | enough hwants => exact .inl hwants
  | failed hwants hnone => exact .inr (.inr hnone)
  | empty hwants hsome hempty =>
    obtain ⟨rfl, -, -⟩ := ha hpos hsome
    exact .inr (.inl ⟨_, rfl, by simp [Span.isEmpty, hempty]⟩)
  | more hwants hsome hmore hrest ih =>
    obtain ⟨-, -, hstop⟩ := ha hpos hsome
    rw [stopOf_cons, List.length_cons, Nat.add_comm _ 1, ← Nat.add_assoc]
    exact (ih hstop).imp_right (Or.imp_left EndsEmpty.cons)

theorem Repeats.length_le (h : Repeats b a count pos ms) (ha : a.InRange e) (hpos : pos ≤ e) :
    ms.length ≤ e - pos + 1 := by
  induction h with
  | enough | failed | empty => simp
  | more hwants hsome hmore hrest ih =>
    obtain ⟨-, hle, hstop⟩ := ha hpos hsome
    have hrest_le := ih hstop
    rw [List.length_cons]
    omega

theorem Repeats.collects (h : Repeats b a 0 start ms) (ha : a.InRange e) (hstart : start ≤ e) :
    Collects b a e start ms where
  start_le := hstart
  chained := h.chained
  length_le := by
    refine Nat.le_of_not_lt fun hlt => ?_
    have hwants := h.wants_of_lt b.max hlt
    simp [Bounds.wants] at hwants
  length_le_of_lazy hlazy := by
    refine Nat.le_of_not_lt fun hlt => ?_
    have hwants := h.wants_of_lt b.min hlt
    simp [Bounds.wants, hlazy] at hwants
  nonempty := h.nonempty ha hstart
  stopped := by
    rcases h.stopped ha hstart with hwants | hstopped
    · have hmax : ∀ i < ms.length, i < b.max := by
        intro i hi
        have hi := h.wants_of_lt i hi
        simp only [Bounds.wants, Nat.zero_add, Bool.and_eq_true, decide_eq_true_eq] at hi
        exact hi.1
      simp only [Bounds.wants, Nat.zero_add, Bool.and_eq_false_iff, decide_eq_false_iff_not,
        Bool.or_eq_false_iff, Nat.not_lt] at hwants
      rcases hwants with hmax_le | hlazy
      · refine .inl (Nat.le_antisymm ?_ hmax_le)
        refine Nat.le_of_not_lt fun hlt => ?_
        exact Nat.lt_irrefl _ (hmax _ hlt)
      · exact .inr (.inl hlazy)
    · exact .inr (.inr hstopped)

/-- Two collections go the same way as far as both go. -/
theorem Collects.take_eq (h : Collects b a e start ms) (h' : Collects b a e start ms') {i : Nat}
    (hi : i ≤ ms.length) (hi' : i ≤ ms'.length) : ms.take i = ms'.take i := by
  induction i with
  | zero => rfl
  | succ i ih =>
    have htake := ih (Nat.le_of_lt hi) (Nat.le_of_lt hi')
    have hnext : ms[i] = ms'[i] := by
      have hgives := h.chained i hi
      rw [htake, h'.chained i hi'] at hgives
      exact (Option.some.inj hgives).symm
    rw [List.take_succ_eq_append_getElem hi, List.take_succ_eq_append_getElem hi', htake, hnext]

theorem Collects.length_le_length (h : Collects b a e start ms) (h' : Collects b a e start ms') :
    ms'.length ≤ ms.length := by
  refine Nat.le_of_not_lt fun hlt => ?_
  have htake : ms = ms'.take ms.length := by
    simpa using h.take_eq h' (Nat.le_refl _) (Nat.le_of_lt hlt)
  rcases h.stopped with hmax | ⟨hlazy, hmin⟩ | ⟨m, hlast, hempty⟩ | hnone
  · have := h'.length_le
    omega
  · have := h'.length_le_of_lazy hlazy
    omega
  · have hmem : m ∈ ms'.dropLast := by
      have hm := List.mem_of_getLast? hlast
      rw [htake] at hm
      rw [List.dropLast_eq_take]
      exact List.take_subset_take_left ms' (by omega) hm
    rw [h'.nonempty m hmem] at hempty
    cases hempty
  · have hsome := h'.chained ms.length hlt
    rw [← htake, hnone] at hsome
    cases hsome

theorem Collects.unique (h : Collects b a e start ms) (h' : Collects b a e start ms') :
    ms = ms' := by
  have hlen : ms.length = ms'.length :=
    Nat.le_antisymm (h'.length_le_length h) (h.length_le_length h')
  have htake := h.take_eq h' (Nat.le_refl _) (Nat.le_of_eq hlen)
  rwa [List.take_length, hlen, List.take_length] at htake

theorem collects_repetitions (ha : a.InRange e) (hstart : start ≤ e) :
    Collects b a e start (repetitions b a e 0 start) :=
  (repeats_repetitions ha hstart).collects ha hstart

theorem Collects.eq_repetitions (ha : a.InRange e) (h : Collects b a e start ms) :
    ms = repetitions b a e 0 start :=
  h.unique (collects_repetitions ha h.start_le)

theorem repetitions_congr {a' : Attempt} (h : ∀ pos ≤ e, a pos = a' pos) (hpos : pos ≤ e) :
    repetitions b a e count pos = repetitions b a' e count pos := by
  -- The loop asks for matches nowhere but in the text.
  fun_induction repetitions b a e count pos with
  | case1 count pos hwants hnone => rw [repetitions, if_pos hwants, ← h pos hpos, hnone]
  | case2 count pos hwants m hsome hmore ih =>
    rw [ih hmore.2, repetitions.eq_def b a' e count pos, if_pos hwants, ← h pos hpos, hsome]
    simp only [if_pos hmore]
  | case3 count pos hwants m hsome hdone =>
    rw [repetitions, if_pos hwants, ← h pos hpos, hsome]
    simp only [if_neg hdone]
  | case4 count pos hwants => rw [repetitions, if_neg hwants]

theorem iterations_eq_some_iff (ha : a.InRange e) (hstart : start ≤ e) {m : Match} :
    iterations b a e start = some m ↔
      ∃ ms, Collects b a e start ms ∧ (b.min ≤ ms.length ∨ EndsEmpty ms) ∧ m = joined start ms := by
  have hends (ms : List Match) :
      ms.getLast?.any (·.span.isEmpty) = true ↔ EndsEmpty ms := by
    simp [EndsEmpty, Option.any_eq_true]
  simp only [iterations, Option.ite_none_right_eq_some, Bool.or_eq_true, decide_eq_true_eq, hends,
    Option.some.injEq]
  constructor
  · rintro ⟨henough, rfl⟩
    exact ⟨_, collects_repetitions ha hstart, henough, rfl⟩
  · rintro ⟨ms, hms, henough, rfl⟩
    obtain rfl := hms.eq_repetitions ha
    exact ⟨henough, rfl⟩

end

end Match

namespace Grammar

/-- What rule `child` matches again and again from `start` on. -/
def Collects (g : Grammar) (child : Nat) (b : Match.Bounds) (src : Source) (start : Nat)
    (stop : Option Nat) (flags : Flags) (ms : List Match) : Prop :=
  Match.Collects b (fun pos => g.match? child src pos stop flags) (src.limit stop) start ms

variable {g : Grammar} {src : Source} {flags : Flags} {stop : Option Nat} {id child : Nat}
  {b : Match.Bounds}

theorem inRange_match? (g : Grammar) (id : Nat) (src : Source) (stop : Option Nat) (flags : Flags) :
    Attempt.InRange (src.limit stop) fun pos => g.match? id src pos stop flags := by
  intro pos m hpos h
  simp only [match?, if_pos hpos] at h
  exact g.inRange_attempt src flags _ id hpos h

theorem match?_iterations (hnode : g.nodes[id]? = some (.iterations child b)) (hchild : child < id)
    {start : Nat} (hstart : start ≤ src.limit stop) :
    g.match? id src start stop flags =
      Match.iterations b (fun pos => g.match? child src pos stop flags) (src.limit stop) start := by
  have hpart : ∀ pos ≤ src.limit stop,
      g.attempt src flags (src.limit stop) child pos = g.match? child src pos stop flags := by
    intro pos hpos
    simp only [match?, if_pos hpos]
  simp only [match?, if_pos hstart, attempt_eq hnode, Matching.attempt, if_pos hchild]
  simp only [Match.iterations, Match.repetitions_congr hpart hstart]
  rfl

/-- A rule that repeats another collects one list of matches and no other, and takes all of it or
fails. It comes to its end however often it may repeat. -/
theorem match?_iterations_iff (hnode : g.nodes[id]? = some (.iterations child b))
    (hchild : child < id) (src : Source) (start : Nat) (stop : Option Nat) (flags : Flags) :
    (start ≤ src.limit stop → ∃! ms, g.Collects child b src start stop flags ms) ∧
      (∀ m, g.match? id src start stop flags = some m ↔
        ∃ ms, g.Collects child b src start stop flags ms ∧
          (b.min ≤ ms.length ∨ Match.EndsEmpty ms) ∧ m = Match.joined start ms) ∧
      ∀ ms, g.Collects child b src start stop flags ms →
        ms.length ≤ src.limit stop - start + 1 ∧ (b.greedy = false → ms.length ≤ b.min) := by
  have hrange := g.inRange_match? child src stop flags
  refine ⟨?_, ?_, ?_⟩
  · intro hstart
    have hms := Match.collects_repetitions (b := b) hrange hstart
    exact ⟨_, hms, fun ms' hms' => hms'.unique hms⟩
  · intro m
    by_cases hstart : start ≤ src.limit stop
    · rw [match?_iterations hnode hchild hstart]
      exact Match.iterations_eq_some_iff hrange hstart
    · rw [match?, if_neg hstart]
      constructor
      · intro h
        cases h
      · rintro ⟨ms, hms, -⟩
        exact absurd hms.start_le hstart
  · intro ms hms
    obtain rfl := hms.eq_repetitions hrange
    exact ⟨(Match.repeats_repetitions hrange hms.start_le).length_le hrange hms.start_le,
      hms.length_le_of_lazy⟩

/-- Of three repetitions that are asked for the second is empty, so that it is the last. -/
theorem match?_iterations_iff_of_empty :
    let g : Grammar :=
      ⟨.ascii, #[.char ['a'] false, .iterations 0 ⟨0, maxOffset, true⟩,
        .iterations 1 ⟨3, maxOffset, true⟩]⟩
    let src := Source.utf8 ['a', 'a', 'b']
    g.nodes[2]? = some (.iterations 1 ⟨3, maxOffset, true⟩) ∧ 1 < 2 ∧
      ∃ m₁ m₂, g.Collects 1 ⟨3, maxOffset, true⟩ src 0 none .none [m₁, m₂] ∧
        m₁.span = ⟨0, 2⟩ ∧ m₂.span = ⟨2, 2⟩ := by
  intro g src
  have hnode : g.nodes[2]? = some (.iterations 1 ⟨3, maxOffset, true⟩) := rfl
  have hmatch : g.match? 2 src 0 none .none =
      some ⟨⟨0, 2⟩, none, [⟨⟨0, 2⟩, none, [.leaf 0 1, .leaf 1 2]⟩, ⟨⟨2, 2⟩, none, []⟩]⟩ := by
    decide +kernel
  refine ⟨hnode, by decide, ?_⟩
  obtain ⟨ms, hms, -, hm⟩ :=
    ((match?_iterations_iff hnode (by decide) src 0 none .none).2.1 _).1 hmatch
  obtain rfl := (Match.mk.inj hm).2.2
  exact ⟨_, _, hms, rfl, rfl⟩

end Grammar

end Recognition
