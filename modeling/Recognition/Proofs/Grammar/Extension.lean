import Recognition.Grammar.Basic

namespace Recognition

namespace Grammar

/-- What may be asked of a grammar to add rules to it. -/
inductive Addition where
  | rule (node : Node)
  | branch (nodes : List Node)
  | inverse (id : Nat)
deriving DecidableEq, Repr

def extend (g : Grammar) : Addition → Grammar
  | .rule node => (g.add node).1
  | .branch nodes => (g.addBranch nodes).1
  | .inverse id => ((g.invert? id).map Prod.fst).getD g

def extendAll (g : Grammar) (additions : List Addition) : Grammar := additions.foldl extend g

/-- `g'` has the rules of `g`, and may have others after them. -/
structure Extends (g g' : Grammar) : Prop where
  classifier_eq : g'.classifier = g.classifier
  size_le : g.size ≤ g'.size
  getElem?_eq : ∀ id < g.size, g'.nodes[id]? = g.nodes[id]?

variable {g g' g'' : Grammar}

theorem Extends.refl (g : Grammar) : g.Extends g := ⟨rfl, Nat.le_refl _, fun _ _ => rfl⟩

theorem Extends.trans (h : g.Extends g') (h' : g'.Extends g'') : g.Extends g'' where
  classifier_eq := h'.classifier_eq.trans h.classifier_eq
  size_le := Nat.le_trans h.size_le h'.size_le
  getElem?_eq id hid := by
    rw [h'.getElem?_eq id (Nat.lt_of_lt_of_le hid h.size_le), h.getElem?_eq id hid]

theorem extends_add (g : Grammar) (node : Node) : g.Extends (g.add node).1 where
  classifier_eq := rfl
  size_le := by
    rw [size_add]
    exact Nat.le_succ _
  getElem?_eq _ hid := getElem?_add_of_lt hid node

theorem extends_append (g : Grammar) (nodes : List Node) :
    g.Extends { g with nodes := g.nodes ++ nodes } := by
  induction nodes generalizing g with
  | nil =>
    rw [Array.appendList_nil]
    exact .refl g
  | cons node nodes ih =>
    rw [Array.appendList_cons]
    exact (g.extends_add node).trans (ih _)

theorem extends_addBranch (g : Grammar) (nodes : List Node) : g.Extends (g.addBranch nodes).1 :=
  (g.extends_append nodes).trans (extends_add _ _)

theorem extends_invert? {id : Nat} {new : Grammar × Nat} (h : g.invert? id = some new) :
    g.Extends new.1 := by
  obtain ⟨node, -, rfl⟩ := Option.map_eq_some_iff.1 h
  exact g.extends_add node

theorem extends_extend (g : Grammar) (addition : Addition) : g.Extends (g.extend addition) := by
  cases addition with
  | rule node => exact g.extends_add node
  | branch nodes => exact g.extends_addBranch nodes
  | inverse id =>
    rw [extend]
    cases hnew : g.invert? id with
    | none => exact .refl g
    | some new => exact extends_invert? hnew

theorem extends_extendAll (g : Grammar) (additions : List Addition) :
    g.Extends (g.extendAll additions) := by
  induction additions generalizing g with
  | nil => exact .refl g
  | cons addition additions ih => exact (g.extends_extend addition).trans (ih _)

/-- A rule may refer to one that is added later, but only those before it are tried. -/
theorem Extends.attempt_eq (h : g.Extends g') {id : Nat} (hid : id < g.size) (src : Source)
    (flags : Flags) (e : Nat) : g'.attempt src flags e id = g.attempt src flags e id := by
  induction id using Nat.strongRecOn with
  | ind id ih =>
    have hnode : g.nodes[id]? = some g.nodes[id] := Array.getElem?_eq_getElem hid
    have hsub : (fun child => if child < id then g'.attempt src flags e child else fun _ => none) =
        fun child => if child < id then g.attempt src flags e child else fun _ => none := by
      funext child
      by_cases hlt : child < id
      · rw [if_pos hlt, if_pos hlt, ih child hlt (Nat.lt_trans hlt hid)]
      · rw [if_neg hlt, if_neg hlt]
    rw [Grammar.attempt_eq hnode, Grammar.attempt_eq ((h.getElem?_eq id hid).trans hnode), hsub,
      h.classifier_eq]

/-- The rules that a grammar has are the same whatever is added, and they match as before. -/
theorem match?_extendAll {g : Grammar} {id : Nat} (hid : id < g.size) (additions : List Addition) :
    (g.extendAll additions).nodes[id]? = g.nodes[id]? ∧
      ∀ src start stop flags, (g.extendAll additions).match? id src start stop flags =
        g.match? id src start stop flags := by
  have hextends := g.extends_extendAll additions
  refine ⟨hextends.getElem?_eq id hid, ?_⟩
  intro src start stop flags
  rw [match?, match?, hextends.attempt_eq hid]

/-- The branch does not try the rules 2 and 3, which it refers to before they are added. -/
theorem match?_extendAll_of_missing_rules :
    let g : Grammar := ⟨.ascii, #[.any, .branch [3, 2, 0]]⟩
    let additions :=
      [Addition.rule .noop, .branch [.literal ['a']], .rule (.space false), .inverse 5]
    1 < g.size ∧ (g.extendAll additions).size = 7 ∧
      (g.extendAll additions).match? 1 (.utf8 ['a']) 0 none .none =
        some ⟨⟨0, 1⟩, some 2, [.leaf 0 1]⟩ := by
  intro g additions
  have hid : 1 < g.size := by decide
  refine ⟨hid, by decide, ?_⟩
  rw [(match?_extendAll hid additions).2]
  decide +kernel

end Grammar

end Recognition
