import Recognition.Grammar.Node

namespace Recognition

/-- Rules by their numbers. A rule may refer to any number, but only rules before it can match. -/
structure Grammar where
  classifier : Classifier
  nodes : Array Node

namespace Grammar

def empty (classifier : Classifier) : Grammar := ⟨classifier, #[]⟩

def size (g : Grammar) : Nat := g.nodes.size

def add (g : Grammar) (node : Node) : Grammar × Nat :=
  ({ g with nodes := g.nodes.push node }, g.size)

def addBranch (g : Grammar) (nodes : List Node) : Grammar × Nat :=
  { g with nodes := g.nodes ++ nodes }.add (.branch (List.range' g.size nodes.length))

def invert? (g : Grammar) (id : Nat) : Option (Grammar × Nat) :=
  (g.nodes[id]?.bind Node.inverse?).map g.add

/-- Tries rule `id`. A rule before it is tried in turn, any other fails. -/
def attempt (g : Grammar) (src : Source) (flags : Flags) (e id : Nat) : Attempt :=
  match g.nodes[id]? with
  | none => fun _ => none
  | some node =>
    Matching.attempt ⟨g.classifier, src, flags, e⟩
      (fun child => if child < id then g.attempt src flags e child else fun _ => none) node
termination_by id

/-- The match of rule `id` that begins at `start`. -/
def match? (g : Grammar) (id : Nat) (src : Source) (start : Nat) (stop : Option Nat)
    (flags : Flags) : Option Match :=
  let e := src.limit stop
  if start ≤ e then g.attempt src flags e id start else none

def rule (g : Grammar) (id : Nat) : Recognizer Match where
  recognize := g.match? id
  span := Match.span

theorem attempt_eq {g : Grammar} {id : Nat} {node : Node} (h : g.nodes[id]? = some node)
    (src : Source) (flags : Flags) (e : Nat) :
    g.attempt src flags e id =
      Matching.attempt ⟨g.classifier, src, flags, e⟩
        (fun child => if child < id then g.attempt src flags e child else fun _ => none) node := by
  rw [attempt, h]

theorem size_add (g : Grammar) (node : Node) : (g.add node).1.size = g.size + 1 := by
  simp [add, size]

theorem getElem?_add_of_lt {g : Grammar} {id : Nat} (h : id < g.size) (node : Node) :
    (g.add node).1.nodes[id]? = g.nodes[id]? :=
  Array.getElem?_push_lt h |>.trans (Array.getElem?_eq_getElem h).symm

end Grammar

end Recognition
