import Recognition.Grammar.Basic
import Recognition.Proofs.Grammar.Tiling

namespace Recognition

/-- In every node of the tree the span runs forwards and holds those of the children. -/
inductive Match.Nested : Match → Prop
  | intro {m : Match} (hspan : m.span.start ≤ m.span.stop)
    (hinside : ∀ c ∈ m.children, m.span.start ≤ c.span.start ∧ c.span.stop ≤ m.span.stop)
    (hchildren : ∀ c ∈ m.children, Nested c) : Nested m

namespace Node

/-- How the children of a match lie in it. -/
def Shape : Node → Match → Prop
  | .sequence _, m | .iterations _ _, m => Match.Tiles m.span.stop m.span.start m.children
  | .branch _, m => ∃ c, m.children = [c] ∧ c.span = m.span
  | .permutation _, m => ∃ ms, ms.Perm m.children ∧ Match.Tiles m.span.stop m.span.start ms
  | _, m => m.children = []

/-- The rules of which the children are matches, in order. -/
def parts : Node → Match → List Nat
  | .sequence rules, _ | .permutation rules, _ => rules
  | .branch rules, m => (m.hit.bind fun i => rules[i]?).toList
  | .iterations rule _, m => m.children.map fun _ => rule
  | _, _ => []

def isLeaf : Node → Bool
  | .sequence _ | .branch _ | .permutation _ | .iterations _ _ => false
  | _ => true

theorem shape_of_isLeaf {node : Node} (h : node.isLeaf = true) {m : Match} (hm : m.children = []) :
    node.Shape m := by
  cases node with
  | sequence | branch | permutation | iterations => cases h
  | _ => exact hm

theorem parts_of_isLeaf {node : Node} (h : node.isLeaf = true) (m : Match) : node.parts m = [] := by
  cases node with
  | sequence | branch | permutation | iterations => cases h
  | _ => rfl

end Node

namespace Matching

variable {m : Matching} {sub : Nat → Attempt} {node : Node} {pos : Nat} {t : Match}

/-- The match begins at `pos`, ends before the text does, and is made of matches of its parts. -/
structure Fits (m : Matching) (sub : Nat → Attempt) (node : Node) (pos : Nat) (t : Match) :
    Prop where
  start_eq : t.span.start = pos
  le_stop : pos ≤ t.span.stop
  stop_le : t.span.stop ≤ m.stop
  inside : ∀ c ∈ t.children,
    t.span.start ≤ c.span.start ∧ c.span.start ≤ c.span.stop ∧ c.span.stop ≤ t.span.stop
  shape : node.Shape t
  parts : List.Forall₂ (fun id c => (sub id).Gives c) (node.parts t) t.children

theorem exists_leaf_of_glyph {invert : Bool} {test : Glyph → Bool}
    (h : m.glyph invert test pos = some t) :
    ∃ stop, t = .leaf pos stop ∧ pos ≤ stop ∧ stop ≤ m.stop := by
  obtain ⟨g, hg, rfl⟩ := Option.map_eq_some_iff.1 h
  have hbounds := Source.glyph?_bounds (Option.filter_eq_some_iff.1 hg).1
  exact ⟨pos + g.width, rfl, Nat.le_add_right _ _, hbounds.2⟩

theorem exists_of_member {invert : Bool} {members : List Char}
    (h : m.member invert members pos = some t) :
    ∃ stop hit, t = ⟨⟨pos, stop⟩, hit, []⟩ ∧ pos ≤ stop ∧ stop ≤ m.stop := by
  simp only [member, Option.bind_eq_bind, Option.bind_eq_some_iff] at h
  obtain ⟨g, hg, h⟩ := h
  have hbounds := Source.glyph?_bounds hg
  have hle := Nat.le_add_right pos g.width
  split at h
  · exact ⟨_, _, (Option.some.inj h).symm, hle, hbounds.2⟩
  · exact ⟨_, _, (Option.some.inj h).symm, hle, hbounds.2⟩
  · simp at h

theorem literalEnd?_bounds {text : List Char} {stop : Nat} (hpos : pos ≤ m.stop)
    (h : m.literalEnd? text pos = some stop) : pos ≤ stop ∧ stop ≤ m.stop := by
  fun_induction literalEnd? m text pos with
  | case1 text pos hempty =>
    obtain rfl := Option.some.inj h
    exact ⟨Nat.le_refl _, hpos⟩
  | case2 => simp at h
  | case3 => simp at h
  | case4 text pos hempty g hg rest hrest ih =>
    have hbounds := Source.glyph?_bounds hg
    obtain ⟨hle, hstop⟩ := ih hbounds.2 h
    exact ⟨by omega, hstop⟩

theorem fits_of_no_children (hleaf : node.isLeaf = true) {stop : Nat} (hspan : t.span = ⟨pos, stop⟩)
    (hchildren : t.children = []) (hle : pos ≤ stop) (hstop : stop ≤ m.stop) :
    m.Fits sub node pos t where
  start_eq := by rw [hspan]
  le_stop := by rw [hspan]; exact hle
  stop_le := by rw [hspan]; exact hstop
  inside := by simp [hchildren]
  shape := Node.shape_of_isLeaf hleaf hchildren
  parts := by rw [Node.parts_of_isLeaf hleaf, hchildren]; exact .nil

theorem fits_of_glyph (hleaf : node.isLeaf = true) {invert : Bool} {test : Glyph → Bool}
    (h : m.glyph invert test pos = some t) : m.Fits sub node pos t := by
  obtain ⟨stop, rfl, hle, hstop⟩ := exists_leaf_of_glyph h
  exact fits_of_no_children hleaf rfl rfl hle hstop

theorem fits_of_place (hleaf : node.isLeaf = true) (hpos : pos ≤ m.stop) {invert : Bool}
    {test : Nat → Bool} (h : place invert test pos = some t) : m.Fits sub node pos t := by
  rw [place] at h
  split at h
  · obtain rfl := Option.some.inj h
    exact fits_of_no_children hleaf rfl rfl (Nat.le_refl _) hpos
  · simp at h

theorem inside_of_tiles {start stop : Nat} {ms cs : List Match}
    (hsub : ∀ id, (sub id).InRange m.stop) (hstart : start ≤ m.stop)
    (htiles : Match.Tiles stop start ms) (hperm : ms.Perm cs)
    (hgives : ∀ c ∈ cs, ∃ id, (sub id).Gives c) :
    start ≤ stop ∧ stop ≤ m.stop ∧
      ∀ c ∈ cs, start ≤ c.span.start ∧ c.span.start ≤ c.span.stop ∧ c.span.stop ≤ stop := by
  obtain ⟨hle, hstop, hin⟩ := htiles.bounds hstart fun c hc => by
    obtain ⟨id, hid⟩ := hgives c (hperm.subset hc)
    exact ⟨sub id, hsub id, hid⟩
  exact ⟨hle, hstop, fun c hc => hin c (hperm.symm.subset hc)⟩

theorem exists_gives_of_forall₂ {ids : List Nat} {cs : List Match}
    (h : List.Forall₂ (fun id c => (sub id).Gives c) ids cs) :
    ∀ c ∈ cs, ∃ id, (sub id).Gives c := by
  induction h with
  | nil => simp
  | cons hgives _ ih =>
    intro c hc
    rcases List.mem_cons.1 hc with rfl | hc
    · exact ⟨_, hgives⟩
    · exact ih c hc

theorem inRange_of_mem_map {rules : List Nat} {e : Nat} (hsub : ∀ id, (sub id).InRange e) :
    ∀ a ∈ rules.map sub, a.InRange e := by
  intro a ha
  obtain ⟨id, -, rfl⟩ := List.mem_map.1 ha
  exact hsub id

theorem fits_of_sequence {rules : List Nat} (hsub : ∀ id, (sub id).InRange m.stop)
    (hpos : pos ≤ m.stop) (h : Match.sequence (rules.map sub) pos = some t) :
    m.Fits sub (.sequence rules) pos t := by
  obtain ⟨ms, hms, rfl⟩ := Option.map_eq_some_iff.1 h
  obtain ⟨hgives, htiles⟩ := Match.tiles_of_chain (inRange_of_mem_map hsub) hpos hms
  rw [List.forall₂_map_left_iff] at hgives
  obtain ⟨hle, hstop, hinside⟩ :=
    inside_of_tiles hsub hpos htiles (.refl _) (exists_gives_of_forall₂ hgives)
  exact ⟨rfl, hle, hstop, hinside, htiles, hgives⟩

theorem fits_of_branch {rules : List Nat} (hsub : ∀ id, (sub id).InRange m.stop)
    (hpos : pos ≤ m.stop) (h : Match.branch (rules.map sub) pos = some t) :
    m.Fits sub (.branch rules) pos t := by
  obtain ⟨i, a, c, ha, hc, rfl⟩ := Match.exists_of_branch h
  rw [List.getElem?_map] at ha
  obtain ⟨id, hid, rfl⟩ := Option.map_eq_some_iff.1 ha
  obtain ⟨rfl, hle, hstop⟩ := hsub id hpos hc
  refine ⟨rfl, hle, hstop, by simpa using hle, ⟨c, rfl, rfl⟩, ?_⟩
  simpa [Node.parts, hid, Attempt.Gives] using hc

theorem fits_of_permutation {rules : List Nat} (hsub : ∀ id, (sub id).InRange m.stop)
    (hpos : pos ≤ m.stop) (h : Match.permutation (rules.map sub) pos = some t) :
    m.Fits sub (.permutation rules) pos t := by
  obtain ⟨rfl, hgives, ms, hperm, htiles⟩ :=
    Match.tiles_of_permutation (inRange_of_mem_map hsub) hpos h
  rw [List.forall₂_map_left_iff] at hgives
  obtain ⟨hle, hstop, hinside⟩ :=
    inside_of_tiles hsub hpos htiles hperm (exists_gives_of_forall₂ hgives)
  exact ⟨rfl, hle, hstop, hinside, ⟨ms, hperm, htiles⟩, hgives⟩

theorem fits_of_iterations {rule : Nat} {bounds : Match.Bounds}
    (hsub : ∀ id, (sub id).InRange m.stop) (hpos : pos ≤ m.stop)
    (h : Match.iterations bounds (sub rule) m.stop pos = some t) :
    m.Fits sub (.iterations rule bounds) pos t := by
  simp only [Match.iterations] at h
  split at h
  · obtain rfl := Option.some.inj h
    obtain ⟨hgives, htiles⟩ := (Match.repeats_repetitions (hsub rule) hpos).tiles (hsub rule) hpos
    obtain ⟨hle, hstop, hinside⟩ :=
      inside_of_tiles hsub hpos htiles (.refl _) fun c hc => ⟨rule, hgives c hc⟩
    refine ⟨rfl, hle, hstop, hinside, htiles, ?_⟩
    rw [Node.parts, List.forall₂_map_left_iff, List.forall₂_same]
    exact hgives
  · simp at h

theorem fits_of_attempt (hsub : ∀ id, (sub id).InRange m.stop) (hpos : pos ≤ m.stop)
    (h : m.attempt sub node pos = some t) : m.Fits sub node pos t := by
  cases node with
  | noop =>
    obtain rfl := Option.some.inj h
    exact fits_of_no_children rfl rfl rfl (Nat.le_refl _) hpos
  | any => exact fits_of_glyph rfl h
  | char scalars invert => exact fits_of_glyph rfl h
  | set members invert =>
    obtain ⟨stop, hit, rfl, hle, hstop⟩ := exists_of_member h
    exact fits_of_no_children rfl rfl rfl hle hstop
  | space invert => exact fits_of_glyph rfl h
  | punct invert => exact fits_of_glyph rfl h
  | spaceOrPunct invert => exact fits_of_glyph rfl h
  | lineStart invert => exact fits_of_place rfl hpos h
  | lineEnd invert => exact fits_of_place rfl hpos h
  | literal text =>
    obtain ⟨stop, hend, rfl⟩ := Option.map_eq_some_iff.1 h
    obtain ⟨hle, hstop⟩ := literalEnd?_bounds hpos hend
    exact fits_of_no_children rfl rfl rfl hle hstop
  | sequence rules => exact fits_of_sequence hsub hpos h
  | branch rules => exact fits_of_branch hsub hpos h
  | permutation rules => exact fits_of_permutation hsub hpos h
  | iterations rule bounds => exact fits_of_iterations hsub hpos h

end Matching

namespace Grammar

variable {g : Grammar} {src : Source} {flags : Flags} {e id : Nat}

/-- How rule `id` tries the rules that it refers to. -/
def part (g : Grammar) (src : Source) (flags : Flags) (e id child : Nat) : Attempt :=
  if child < id then g.attempt src flags e child else fun _ => none

theorem exists_node_of_attempt {pos : Nat} {m : Match}
    (h : g.attempt src flags e id pos = some m) :
    ∃ node, g.nodes[id]? = some node ∧
      Matching.attempt ⟨g.classifier, src, flags, e⟩ (g.part src flags e id) node pos = some m := by
  cases hnode : g.nodes[id]? with
  | none =>
    rw [attempt, hnode] at h
    simp at h
  | some node =>
    rw [attempt_eq hnode] at h
    exact ⟨node, rfl, h⟩

theorem inRange_part_of_attempt {child : Nat}
    (h : child < id → (g.attempt src flags e child).InRange e) :
    (g.part src flags e id child).InRange e := by
  rw [part]
  by_cases hlt : child < id
  · rw [if_pos hlt]
    exact h hlt
  · rw [if_neg hlt]
    intro pos m _ hm
    simp at hm

theorem inRange_attempt (g : Grammar) (src : Source) (flags : Flags) (e id : Nat) :
    (g.attempt src flags e id).InRange e := by
  -- A rule keeps to the text because the rules before it do.
  induction id using Nat.strongRecOn with
  | ind id ih =>
    intro pos m hpos h
    obtain ⟨node, -, hm⟩ := exists_node_of_attempt h
    have hpart : ∀ child, (g.part src flags e id child).InRange e := by
      intro child
      exact inRange_part_of_attempt (ih child)
    have hfits := Matching.fits_of_attempt hpart hpos hm
    exact ⟨hfits.start_eq, hfits.le_stop, hfits.stop_le⟩

theorem inRange_part (g : Grammar) (src : Source) (flags : Flags) (e id child : Nat) :
    (g.part src flags e id child).InRange e :=
  inRange_part_of_attempt fun _ => g.inRange_attempt src flags e child

theorem fits_of_attempt {pos : Nat} {m : Match} (hpos : pos ≤ e)
    (h : g.attempt src flags e id pos = some m) :
    ∃ node, g.nodes[id]? = some node ∧
      Matching.Fits ⟨g.classifier, src, flags, e⟩ (g.part src flags e id) node pos m := by
  obtain ⟨node, hnode, hm⟩ := exists_node_of_attempt h
  exact ⟨node, hnode, Matching.fits_of_attempt (g.inRange_part src flags e id) hpos hm⟩

theorem gives_of_part {child : Nat} {m : Match} (h : (g.part src flags e id child).Gives m) :
    child < id ∧ (g.attempt src flags e child).Gives m := by
  rw [Attempt.Gives, part] at h
  split at h
  · exact ⟨‹_›, h⟩
  · simp at h

/-- The tree is a match of the rule: every node is what a rule gives where the node begins, has the
shape of that rule, and its children are matches of the rules that this one refers to. -/
inductive Derives (g : Grammar) (src : Source) (flags : Flags) (e : Nat) : Nat → Match → Prop
  | rule {id : Nat} {node : Node} {m : Match} (hnode : g.nodes[id]? = some node)
    (hgives : (g.attempt src flags e id).Gives m) (hshape : node.Shape m)
    (hparts : List.Forall₂ (Derives g src flags e) (node.parts m) m.children) :
    Derives g src flags e id m

theorem derives_of_attempt {pos : Nat} {m : Match} (hpos : pos ≤ e)
    (h : g.attempt src flags e id pos = some m) : g.Derives src flags e id m ∧ m.Nested := by
  induction id using Nat.strongRecOn generalizing pos m with
  | ind id ih =>
    -- A node may refer to any rule, but the matches of its parts come from rules before it.
    obtain ⟨node, hnode, rfl, hle, hstop, hinside, hshape, hparts⟩ := fits_of_attempt hpos h
    have hstop : m.span.stop ≤ e := hstop
    have hchild : ∀ child, ∀ c ∈ m.children, (g.part src flags e id child).Gives c →
        g.Derives src flags e child c ∧ c.Nested := by
      intro child c hc hgives
      obtain ⟨hlt, hgives⟩ := gives_of_part hgives
      have hcstart : c.span.start ≤ e := by
        have := hinside c hc
        omega
      exact ih child hlt hcstart hgives
    constructor
    · refine .rule hnode h hshape (List.forall₂_iff_zip.2 ⟨hparts.length_eq, ?_⟩)
      intro child c hmem
      exact (hchild child c (List.of_mem_zip hmem).2 (List.forall₂_zip hparts hmem)).1
    · refine .intro hle (fun c hc => ⟨(hinside c hc).1, (hinside c hc).2.2⟩) ?_
      intro c hc
      obtain ⟨child, hgives⟩ := Matching.exists_gives_of_forall₂ hparts c hc
      exact (hchild child c hc hgives).2

/-- Whatever the rules are, each repetition they ask for comes to its end, and a match is a tree of
matches of the rules. It begins where it is tried and ends before the text does. -/
theorem match_derives (g : Grammar) (id : Nat) (src : Source) (start : Nat) (stop : Option Nat)
    (flags : Flags) :
    (∀ rule child bounds, ∀ pos ≤ src.limit stop,
        Match.Repeats bounds (g.part src flags (src.limit stop) rule child) 0 pos
          (Match.repetitions bounds (g.part src flags (src.limit stop) rule child)
            (src.limit stop) 0 pos)) ∧
    ∀ m, g.match? id src start stop flags = some m →
      m.span.start = start ∧ start ≤ m.span.stop ∧ m.span.stop ≤ src.limit stop ∧ m.Nested ∧
        g.Derives src flags (src.limit stop) id m := by
  constructor
  · intro rule child bounds pos hpos
    exact Match.repeats_repetitions (g.inRange_part src flags _ rule child) hpos
  · intro m h
    simp only [match?] at h
    split at h
    · rename_i hstart
      obtain ⟨hderives, hnested⟩ := derives_of_attempt hstart h
      obtain ⟨hpos, hle, hstop⟩ := g.inRange_attempt src flags _ id hstart h
      exact ⟨hpos, hle, hstop, hnested, hderives⟩
    · simp at h

/-- A branch over a missing rule, itself and a repetition without bound. -/
theorem match_derives_of_loose_rules :
    ∃ m, Grammar.match?
        ⟨.ascii, #[.any, .iterations 0 ⟨1, maxOffset, true⟩, .branch [9, 2, 1]]⟩ 2
        (.sgml ['a', '&', 'a', 'm', 'p', ';']) 0 none .none = some m ∧
      m.span = ⟨0, 6⟩ ∧ m.hit = some 2 ∧ m.Nested := by
  have h : Grammar.match?
      ⟨.ascii, #[.any, .iterations 0 ⟨1, maxOffset, true⟩, .branch [9, 2, 1]]⟩ 2
      (.sgml ['a', '&', 'a', 'm', 'p', ';']) 0 none .none =
      some ⟨⟨0, 6⟩, some 2, [⟨⟨0, 6⟩, none, [.leaf 0 1, .leaf 1 6]⟩]⟩ := by decide +kernel
  obtain ⟨-, -, -, hnested, -⟩ := (match_derives _ _ _ _ _ _).2 _ h
  exact ⟨_, h, rfl, rfl, hnested⟩

end Grammar

end Recognition
