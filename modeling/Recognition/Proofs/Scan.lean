import Recognition.Proofs.Http.Safety
import Recognition.Proofs.Payment.Extent

namespace Recognition

namespace Recognizer

variable {α : Type}

/-- A run of the loop that searches from `pos` and then from the end of each find, until nothing is
found. Nothing else stops it. -/
inductive Scans (r : Recognizer α) (src : Source) (stop : Option Nat) (flags : Flags) :
    (pos : Nat) → List α → Prop
  | done {pos} (hnone : r.search src pos stop flags = none) : Scans r src stop flags pos []
  | found {pos x xs} (hsome : r.search src pos stop flags = some x)
    (hrest : Scans r src stop flags (r.span x).stop xs) : Scans r src stop flags pos (x :: xs)

/-- The loop comes to its end and finds one list, of ranges that are not empty and lie one after the
other between `start` and the end of what may be read. -/
structure Exhausts (r : Recognizer α) (src : Source) (start : Nat) (stop : Option Nat)
    (flags : Flags) : Prop where
  scans : r.Scans src stop flags start (r.scan src start stop flags)
  unique : ∀ xs, r.Scans src stop flags start xs → xs = r.scan src start stop flags
  inside : ∀ x ∈ r.scan src start stop flags,
    start ≤ (r.span x).start ∧ (r.span x).start < (r.span x).stop ∧
      (r.span x).stop ≤ src.limit stop
  apart : (r.scan src start stop flags).Pairwise fun x y => (r.span x).stop ≤ (r.span y).start

/-- Whatever is recognized begins where it is tried, is not empty and ends within the text. -/
def TakesUp (r : Recognizer α) (src : Source) (flags : Flags) : Prop :=
  ∀ ⦃e pos x⦄, r.recognize src pos (some e) flags = some x →
    (r.span x).start = pos ∧ pos < (r.span x).stop ∧ (r.span x).stop ≤ e

section

variable {r : Recognizer α} {src : Source} {stop : Option Nat} {flags : Flags} {pos : Nat}
  {x : α} {xs : List α}

theorem Scans.unique (h : r.Scans src stop flags pos xs) {ys : List α}
    (h' : r.Scans src stop flags pos ys) : xs = ys := by
  induction h generalizing ys with
  | done hnone =>
    cases h' with
    | done => rfl
    | found hsome =>
      rw [hnone] at hsome
      cases hsome
  | found hsome hrest ih =>
    cases h' with
    | done hnone =>
      rw [hsome] at hnone
      cases hnone
    | found hsome' hrest' =>
      obtain rfl := Option.some.inj (hsome.symm.trans hsome')
      rw [ih hrest']

variable (h : r.TakesUp src flags)

include h

theorem TakesUp.bounds_of_searchFrom {e : Nat} (hfound : r.searchFrom src flags e pos = some x) :
    pos ≤ (r.span x).start ∧ (r.span x).start < (r.span x).stop ∧ (r.span x).stop ≤ e := by
  induction hn : e - pos using Nat.strongRecOn generalizing pos with
  | ind n ih =>
    rw [searchFrom_eq] at hfound
    split at hfound
    · rcases Option.or_eq_some_iff.1 hfound with hhere | ⟨-, hlater⟩
      · obtain ⟨hstart, hlt, hle⟩ := h hhere
        rw [hstart]
        exact ⟨Nat.le_refl _, hlt, hle⟩
      · obtain ⟨g, hg, hlater⟩ := Option.bind_eq_some_iff.1 hlater
        have hbounds := Source.glyph?_bounds hg
        obtain ⟨hstart, hlt, hle⟩ := ih _ (by omega) hlater rfl
        exact ⟨Nat.le_trans (Nat.le_add_right _ _) hstart, hlt, hle⟩
    · cases hfound

theorem TakesUp.bounds_of_search (hfound : r.search src pos stop flags = some x) :
    pos ≤ (r.span x).start ∧ (r.span x).start < (r.span x).stop ∧
      (r.span x).stop ≤ src.limit stop :=
  h.bounds_of_searchFrom hfound

theorem TakesUp.scans_scanFrom (pos : Nat) :
    r.Scans src stop flags pos (r.scanFrom src flags (src.limit stop) pos) := by
  -- As every find takes up units, no find is given up for an empty one.
  fun_induction scanFrom r src flags (src.limit stop) pos with
  | case1 pos hle hnone => exact .done hnone
  | case2 pos hle x hsome hempty =>
    obtain ⟨-, hlt, -⟩ := h.bounds_of_searchFrom hsome
    rw [Span.isEmpty, beq_iff_eq] at hempty
    omega
  | case3 pos hle x hsome hempty hmore ih => exact .found hsome ih
  | case4 pos hle x hsome hempty hmore =>
    obtain ⟨hstart, hlt, -⟩ := h.bounds_of_searchFrom hsome
    exact absurd (Nat.lt_of_le_of_lt hstart hlt) hmore
  | case5 pos hlt =>
    apply Scans.done
    rw [search, searchFrom_eq, if_neg hlt]

theorem TakesUp.inside_of_scans (hscans : r.Scans src stop flags pos xs) :
    ∀ x ∈ xs, pos ≤ (r.span x).start ∧ (r.span x).start < (r.span x).stop ∧
      (r.span x).stop ≤ src.limit stop := by
  induction hscans with
  | done => simp
  | found hsome hrest ih =>
    have hfirst := h.bounds_of_search hsome
    intro y hy
    rcases List.mem_cons.1 hy with rfl | hy
    · exact hfirst
    · have := ih y hy
      omega

theorem TakesUp.apart_of_scans (hscans : r.Scans src stop flags pos xs) :
    xs.Pairwise fun x y => (r.span x).stop ≤ (r.span y).start := by
  induction hscans with
  | done => exact .nil
  | found hsome hrest ih => exact .cons (fun y hy => (h.inside_of_scans hrest y hy).1) ih

theorem TakesUp.exhausts (start : Nat) (stop : Option Nat) :
    r.Exhausts src start stop flags where
  scans := h.scans_scanFrom start
  unique _ hxs := hxs.unique (h.scans_scanFrom start)
  inside := h.inside_of_scans (h.scans_scanFrom start)
  apart := h.apart_of_scans (h.scans_scanFrom start)

end

end Recognizer

namespace Payment

theorem takesUp_of_read {α : Type} {read : Reading → Nat → Option α} {span : α → Span}
    (h : ∀ {r start x}, read r start = some x →
      (span x).start = start ∧ start < (span x).stop ∧ (span x).stop ≤ r.stop)
    (src : Source) (flags : Flags) : (Reading.recognizer read span).TakesUp src flags := by
  intro e pos x hread
  obtain ⟨hstart, hlt, hstop⟩ := h hread
  exact ⟨hstart, hlt, Nat.le_trans hstop (Nat.min_le_left _ _)⟩

variable (sep : Separator) (src : Source) (flags : Flags)

theorem Iban.takesUp : (Iban.recognizer sep).TakesUp src flags :=
  takesUp_of_read Iban.span_of_read? src flags

theorem CreditorReference.takesUp : (CreditorReference.recognizer sep).TakesUp src flags :=
  takesUp_of_read CreditorReference.span_of_read? src flags

theorem SiReference.takesUp : (SiReference.recognizer sep).TakesUp src flags :=
  takesUp_of_read SiReference.span_of_read? src flags

end Payment

theorem Http.Element.takesUp (element : Element) (src : Source) (flags : Flags) :
    element.recognizer.TakesUp src flags := by
  intro e pos x h
  cases src with
  | latin1 bytes =>
    obtain ⟨-, -, hstart, hlt, hstop⟩ := span_of_parse h
    have hend := Window.endOf_le bytes pos (some e)
    rw [Window.upTo, List.length_take] at hend
    exact ⟨hstart, hlt, Nat.le_trans hstop (Nat.le_trans hend (Nat.min_le_left _ _))⟩
  | _ => cases h

/-- With any separator, account numbers and payment references are found to the end of any source,
and so are elements of HTTP, wherever the loop sets out. -/
theorem scans_exhaust (src : Source) (start : Nat) (stop : Option Nat) (flags : Flags) :
    (∀ sep : Payment.Separator,
      (Payment.Iban.recognizer sep).Exhausts src start stop flags ∧
        (Payment.CreditorReference.recognizer sep).Exhausts src start stop flags ∧
        (Payment.SiReference.recognizer sep).Exhausts src start stop flags) ∧
      ∀ element : Http.Element, element.recognizer.Exhausts src start stop flags := by
  constructor
  · intro sep
    refine ⟨?_, ?_, ?_⟩
    · exact (Payment.Iban.takesUp sep src flags).exhausts start stop
    · exact (Payment.CreditorReference.takesUp sep src flags).exhausts start stop
    · exact (Payment.SiReference.takesUp sep src flags).exhausts start stop
  · intro element
    exact (element.takesUp src flags).exhausts start stop

/-- Where one reference ends the next may begin. -/
example : ((Payment.SiReference.recognizer .space).scan
    (.utf8 ['S', 'I', '9', '9', 'S', 'I', '9', '9', '.']) 0 none .none).map (·.span) =
      [⟨0, 4⟩, ⟨4, 8⟩] := by
  decide +kernel

end Recognition
