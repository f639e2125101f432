import Mathlib.Logic.ExistsUnique
import Recognition.Proofs.Walk

namespace Recognition.Recognizer

variable {α : Type}

/-- A run of the loop that looks for something from `pos` on in a text that ends at `e`, and what it
comes to. It tries an offset before it steps over the glyph there. -/
inductive Searches (r : Recognizer α) (src : Source) (e : Nat) (flags : Flags) :
    (pos : Nat) → Option α → Prop
  | past {pos : Nat} (hpos : e < pos) : Searches r src e flags pos none
  | found {pos : Nat} {x : α} (hpos : pos ≤ e)
    (hsome : r.recognize src pos (some e) flags = some x) : Searches r src e flags pos (some x)
  | ended {pos : Nat} (hpos : pos ≤ e) (hnone : r.recognize src pos (some e) flags = none)
    (hend : src.glyph? pos e = none) : Searches r src e flags pos none
  | next {pos : Nat} {g : Glyph} {found : Option α} (hpos : pos ≤ e)
    (hnone : r.recognize src pos (some e) flags = none) (hg : src.glyph? pos e = some g)
    (hrest : Searches r src e flags (pos + g.width) found) : Searches r src e flags pos found

variable {r : Recognizer α} {src : Source} {e pos : Nat} {flags : Flags} {found : Option α}

theorem searches_searchFrom (pos : Nat) :
    r.Searches src e flags pos (r.searchFrom src flags e pos) := by
  fun_induction searchFrom r src flags e pos with
  | case1 pos hpos x hsome => exact .found hpos hsome
  | case2 pos hpos hnone g hg ih => exact .next hpos hnone hg ih
  | case3 pos hpos hnone hend => exact .ended hpos hnone hend
  | case4 pos hpos => exact .past (Nat.lt_of_not_le hpos)

theorem Searches.eq_searchFrom (h : r.Searches src e flags pos found) :
    found = r.searchFrom src flags e pos := by
  induction h with
  | past hpos => rw [searchFrom_eq, if_neg (Nat.not_le_of_lt hpos)]
  | found hpos hsome =>
    rw [searchFrom_eq, if_pos hpos, hsome]
    rfl
  | ended hpos hnone hend =>
    rw [searchFrom_eq, if_pos hpos, hnone, hend]
    rfl
  | @next pos g found hpos hnone hg hrest ih =>
    rw [ih, searchFrom_eq r src flags e pos, if_pos hpos, hnone, hg]
    rfl

/-- Nothing is found only if nothing is recognized on the whole walk, its last offset included. -/
theorem Searches.recognize_eq_none (h : r.Searches src e flags pos found) (hfound : found = none)
    {gs : List Glyph} {p : Nat} (hwalks : src.Walks e pos gs p) :
    r.recognize src p (some e) flags = none := by
  induction h generalizing gs with
  | past hpos =>
    have := hwalks.bounds
    omega
  | found => cases hfound
  | ended hpos hnone hend =>
    cases hwalks with
    | nil => exact hnone
    | cons hg =>
      rw [hend] at hg
      cases hg
  | next hpos hnone hg hrest ih =>
    cases hwalks with
    | nil => exact hnone
    | cons hg' hwalks =>
      obtain rfl := Option.some.inj (hg.symm.trans hg')
      exact ih hfound hwalks

/-- What is found is recognized on the walk, and nothing is at an offset before. -/
theorem Searches.exists_walks (h : r.Searches src e flags pos found) {x : α}
    (hfound : found = some x) :
    ∃ gs p, src.Walks e pos gs p ∧ r.recognize src p (some e) flags = some x ∧
      ∀ gs' p', src.Walks e pos gs' p' → p' < p → r.recognize src p' (some e) flags = none := by
  induction h with
  | past => cases hfound
  | @found pos y hpos hsome =>
    obtain rfl := Option.some.inj hfound
    refine ⟨[], pos, .nil hpos, hsome, ?_⟩
    intro gs' p' hwalks hlt
    have := hwalks.bounds
    omega
  | ended => cases hfound
  | next hpos hnone hg hrest ih =>
    obtain ⟨gs, p, hwalks, hsome, hfirst⟩ := ih hfound
    refine ⟨_ :: gs, p, .cons hg hwalks, hsome, ?_⟩
    intro gs' p' hwalks' hlt
    cases hwalks' with
    | nil => exact hnone
    | cons hg' hwalks' =>
      obtain rfl := Option.some.inj (hg.symm.trans hg')
      exact hfirst _ _ hwalks' hlt

theorem Searches.eq_none_iff (h : r.Searches src e flags pos found) :
    found = none ↔
      ∀ gs p, src.Walks e pos gs p → r.recognize src p (some e) flags = none := by
  constructor
  · intro hfound gs p hwalks
    exact h.recognize_eq_none hfound hwalks
  · intro hnone
    cases hfound : found with
    | none => rfl
    | some x =>
      obtain ⟨gs, p, hwalks, hsome, -⟩ := h.exists_walks hfound
      cases (hnone gs p hwalks).symm.trans hsome

theorem Searches.eq_some_iff (h : r.Searches src e flags pos found) {x : α} :
    found = some x ↔
      ∃ gs p, src.Walks e pos gs p ∧ r.recognize src p (some e) flags = some x ∧
        ∀ gs' p', src.Walks e pos gs' p' → p' < p →
          r.recognize src p' (some e) flags = none := by
  refine ⟨h.exists_walks, ?_⟩
  rintro ⟨gs, p, hwalks, hsome, hfirst⟩
  cases hfound : found with
  | none => cases (h.recognize_eq_none hfound hwalks).symm.trans hsome
  | some y =>
    -- Of two first offsets neither lies before the other.
    obtain ⟨gs', p', hwalks', hsome', hfirst'⟩ := h.exists_walks hfound
    rcases Nat.lt_trichotomy p p' with hlt | rfl | hlt
    · cases (hfirst' gs p hwalks hlt).symm.trans hsome
    · rw [← hsome', hsome]
    · cases (hfirst gs' p' hwalks' hlt).symm.trans hsome'

/-- A search makes one run and no other, which comes to its end. It gives what is recognized at the
first offset of the walk where anything is, and nothing if there is no such offset. -/
theorem search_leftmost (r : Recognizer α) (src : Source) (start : Nat) (stop : Option Nat)
    (flags : Flags) :
    (∃! found, r.Searches src (src.limit stop) flags start found) ∧
      r.Searches src (src.limit stop) flags start (r.search src start stop flags) ∧
      (∀ x, r.search src start stop flags = some x ↔
        ∃ gs p, src.Walks (src.limit stop) start gs p ∧
          r.recognize src p (some (src.limit stop)) flags = some x ∧
          ∀ gs' p', src.Walks (src.limit stop) start gs' p' → p' < p →
            r.recognize src p' (some (src.limit stop)) flags = none) ∧
      (r.search src start stop flags = none ↔
        ∀ gs p, src.Walks (src.limit stop) start gs p →
          r.recognize src p (some (src.limit stop)) flags = none) := by
  have hrun : r.Searches src (src.limit stop) flags start (r.search src start stop flags) :=
    searches_searchFrom start
  exact ⟨⟨_, hrun, fun _ h => h.eq_searchFrom⟩, hrun, fun _ => hrun.eq_some_iff, hrun.eq_none_iff⟩

end Recognition.Recognizer
