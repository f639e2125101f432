import Recognition.Grammar.Basic
import Recognition.Proofs.Mirror.Match

namespace Recognition

namespace Matching

variable {φ : Nat → Nat} {B : Nat → Prop} {src dst : Source} {c : Classifier} {flags : Flags}
  {e f : Nat}

theorem mirrors_glyph (h : src.MirrorsUpTo e dst f φ B) (invert : Bool) (test : Glyph → Bool)
    (htest : ∀ p g, test (g.mirror φ p) = test g) :
    Attempt.Mirrors φ B (glyph ⟨c, src, flags, e⟩ invert test)
      (glyph ⟨c, dst, flags, f⟩ invert test) := by
  intro p hp
  constructor
  · simp only [glyph, h.glyph?_image hp]
    cases hg : src.glyph? p e with
    | none => rfl
    | some g =>
      simp only [Option.map_some, Option.filter_some, htest]
      split
      · simp [h.image_add_width hp hg]
      · rfl
  · intro m hm
    obtain ⟨g, hg, rfl⟩ := Option.map_eq_some_iff.1 hm
    exact ⟨rfl, h.boundary_next hp (Option.filter_eq_some_iff.1 hg).1⟩

theorem mirrors_member (h : src.MirrorsUpTo e dst f φ B) (invert : Bool) (members : List Char) :
    Attempt.Mirrors φ B (member ⟨c, src, flags, e⟩ invert members)
      (member ⟨c, dst, flags, f⟩ invert members) := by
  intro p hp
  simp only [member, h.glyph?_image hp]
  cases hg : src.glyph? p e with
  | none => simp
  | some g =>
    have hnext := h.boundary_next hp hg
    have hwidth := h.image_add_width hp hg
    simp only [Option.map_some, Option.bind_eq_bind, Option.bind_some, Glyph.scalars_mirror, hwidth]
    constructor
    · split <;> simp [Match.mapOffsets_mk, Match.leaf, Span.mapOffsets]
    · intro m hm
      split at hm
      · obtain rfl := Option.some.inj hm
        exact ⟨rfl, hnext⟩
      · obtain rfl := Option.some.inj hm
        exact ⟨rfl, hnext⟩
      · simp at hm

theorem literalEnd?_eq (m : Matching) (text : List Char) (pos : Nat) :
    m.literalEnd? text pos =
      if text.isEmpty then some pos
      else (m.source.glyph? pos m.stop).bind fun g =>
        (m.classifier.strip? m.flags g.scalars text).bind fun rest =>
          m.literalEnd? rest (pos + g.width) := by
  rw [literalEnd?]
  by_cases hempty : text.isEmpty = true
  · rw [if_pos hempty, if_pos hempty]
  · rw [if_neg hempty, if_neg hempty]
    cases m.source.glyph? pos m.stop with
    | none => rfl
    | some g =>
      simp only [Option.bind_some]
      split <;> simp_all

variable (c flags) in
theorem literalEnd?_image (h : src.MirrorsUpTo e dst f φ B) (text : List Char) {pos : Nat}
    (hpos : B pos) :
    literalEnd? ⟨c, dst, flags, f⟩ text (φ pos) =
        (literalEnd? ⟨c, src, flags, e⟩ text pos).map φ ∧
      ∀ stop, literalEnd? ⟨c, src, flags, e⟩ text pos = some stop → B stop := by
  induction hn : text.length using Nat.strongRecOn generalizing text pos with
  | ind n ih =>
    rw [literalEnd?_eq, literalEnd?_eq]
    by_cases hempty : text.isEmpty = true
    · rw [if_pos hempty, if_pos hempty]
      refine ⟨rfl, ?_⟩
      intro stop hstop
      obtain rfl := Option.some.inj hstop
      exact hpos
    · rw [if_neg hempty, if_neg hempty, h.glyph?_image hpos]
      cases hg : src.glyph? pos e with
      | none => simp
      | some g =>
        simp only [Option.map_some, Option.bind_some, Glyph.scalars_mirror,
          h.image_add_width hpos hg]
        cases hrest : c.strip? flags g.scalars text with
        | none => simp
        | some rest =>
          have hlen := Classifier.length_strip? hrest
          have hscalars := g.scalars_length_pos
          exact ih rest.length (by omega) rest (h.boundary_next hpos hg) rfl

theorem mirrors_place {invert : Bool} {test test' : Nat → Bool}
    (htest : ∀ p, B p → test' (φ p) = test p) :
    Attempt.Mirrors φ B (place invert test) (place invert test') := by
  intro p hp
  simp only [place, htest p hp]
  constructor
  · split <;> simp
  · intro m hm
    split at hm
    · obtain rfl := Option.some.inj hm
      exact ⟨rfl, hp⟩
    · simp at hm

end Matching

namespace Node

def children : Node → List Nat
  | .sequence rules | .branch rules | .permutation rules => rules
  | .iterations rule _ => [rule]
  | _ => []

def isAnchor : Node → Bool
  | .lineStart _ | .lineEnd _ => true
  | _ => false

end Node

theorem Matching.mirrors_attempt {φ : Nat → Nat} {B : Nat → Prop} {src dst : Source}
    {c : Classifier} {flags : Flags} {e f : Nat} (h : src.MirrorsUpTo e dst f φ B) {node : Node}
    (hlines : node.isAnchor = true → src.MirrorsLinesUpTo e dst f φ B) {sub sub' : Nat → Attempt}
    (hsub : ∀ id ∈ node.children, (sub id).Mirrors φ B (sub' id)) :
    Attempt.Mirrors φ B (attempt ⟨c, src, flags, e⟩ sub node)
      (attempt ⟨c, dst, flags, f⟩ sub' node) := by
  -- The nodes with children compose their attempts; the others read one glyph or a text of them.
  have hall : List.Forall₂ (Attempt.Mirrors φ B) (node.children.map sub)
      (node.children.map sub') := by
    rw [List.forall₂_map_left_iff, List.forall₂_map_right_iff, List.forall₂_same]
    exact hsub
  cases node with
  | noop =>
    intro p hp
    refine ⟨by simp [attempt], ?_⟩
    intro m hm
    obtain rfl := Option.some.inj hm
    exact ⟨rfl, hp⟩
  | any => exact mirrors_glyph h _ _ fun _ _ => rfl
  | char scalars invert => exact mirrors_glyph h _ _ fun _ _ => rfl
  | set members invert => exact mirrors_member h invert members
  | space invert => exact mirrors_glyph h _ _ fun _ _ => rfl
  | punct invert => exact mirrors_glyph h _ _ fun _ _ => rfl
  | spaceOrPunct invert => exact mirrors_glyph h _ _ fun _ _ => rfl
  | lineStart invert => exact mirrors_place fun p hp => (hlines rfl).lineStart hp
  | lineEnd invert => exact mirrors_place fun p hp => (hlines rfl).lineEnd hp
  | literal text =>
    intro p hp
    obtain ⟨himage, hstop⟩ := literalEnd?_image c flags h text hp
    simp only [attempt, himage]
    constructor
    · cases literalEnd? ⟨c, src, flags, e⟩ text p <;> simp
    · intro m hm
      obtain ⟨stop, hend, rfl⟩ := Option.map_eq_some_iff.1 hm
      exact ⟨rfl, hstop stop hend⟩
  | sequence rules => exact Match.mirrors_sequence hall
  | branch rules => exact Match.mirrors_branch hall
  | permutation rules => exact Match.mirrors_permutation hall
  | iterations rule bounds => exact Match.mirrors_iterations h (hsub rule List.mem_cons_self)

namespace Grammar

/-- Rule `r` may be tried where rule `id` is. -/
inductive Reaches (g : Grammar) : (id r : Nat) → Prop
  | refl {id : Nat} : Reaches g id id
  | child {id child r : Nat} {node : Node} (hnode : g.nodes[id]? = some node)
    (hchild : child ∈ node.children) (hlt : child < id) (hreaches : Reaches g child r) :
    Reaches g id r

/-- No rule that may be tried looks for the start or the end of a line. -/
def AnchorFree (g : Grammar) (id : Nat) : Prop :=
  ∀ r node, g.Reaches id r → g.nodes[r]? = some node → node.isAnchor = false

variable {φ : Nat → Nat} {B : Nat → Prop} {src dst : Source} {flags : Flags}

theorem mirrors_attempt (g : Grammar) {e f : Nat} (h : src.MirrorsUpTo e dst f φ B) {id : Nat}
    (hlines : g.AnchorFree id ∨ src.MirrorsLinesUpTo e dst f φ B) :
    (g.attempt src flags e id).Mirrors φ B (g.attempt dst flags f id) := by
  induction id using Nat.strongRecOn with
  | ind id ih =>
    cases hnode : g.nodes[id]? with
    | none =>
      rw [attempt, attempt, hnode]
      intro p hp
      simp
    | some node =>
      rw [attempt_eq hnode, attempt_eq hnode]
      refine Matching.mirrors_attempt h ?_ ?_
      · intro hanchor
        rcases hlines with hfree | hlines
        · have := hfree id node .refl hnode
          simp_all
        · exact hlines
      · intro child hchild
        by_cases hlt : child < id
        · simp only [if_pos hlt]
          refine ih child hlt (hlines.imp_left fun hfree r node' hr => ?_)
          exact hfree r node' (.child hnode hchild hlt hr)
        · simp only [if_neg hlt]
          intro p hp
          simp

section UpTo

variable (g : Grammar) {e f : Nat} (h : src.MirrorsUpTo e dst f φ B) {id start : Nat}
  (hlines : g.AnchorFree id ∨ src.MirrorsLinesUpTo e dst f φ B) (hstart : B start)
  {stop stop' : Option Nat} (hstop : src.limit stop = e)

include h hlines hstart hstop

theorem rule_image (hstop' : dst.limit stop' = f) :
    (g.rule id).recognize dst (φ start) stop' flags =
      ((g.rule id).recognize src start stop flags).map (Match.mapOffsets φ) := by
  simp only [rule, match?, hstop, hstop', h.le_iff hstart]
  by_cases hle : start ≤ e
  · rw [if_pos hle, if_pos hle]
    exact (g.mirrors_attempt h hlines hstart).1
  · rw [if_neg hle, if_neg hle]
    rfl

theorem boundary_of_rule {m : Match} (hm : (g.rule id).recognize src start stop flags = some m) :
    B m.span.stop := by
  simp only [rule, match?, hstop] at hm
  split at hm
  · exact ((g.mirrors_attempt h hlines hstart).2 m hm).2
  · simp at hm

end UpTo

theorem mirrors_rule (g : Grammar) (h : src.Mirrors dst φ B) {id start : Nat} {stop : Option Nat}
    (hstart : B start) (hstop : ∀ e ∈ stop, B e)
    (hlines : g.AnchorFree id ∨ src.MirrorsLines dst φ B) :
    (g.rule id).Mirrors src dst φ start stop flags := by
  have he := h.boundary_limit hstop
  exact g.rule_image (h.upTo he) (hlines.imp_right (·.upTo he)) hstart rfl (h.limit_image hstop)

end Grammar

end Recognition
