import Recognition.Span

namespace Recognition

/-- The result of matching a rule, as a tree. -/
structure Match where
  span : Span
  /-- Which member of a set, or which alternative, it was. -/
  hit : Option Nat
  children : List Match
deriving Repr

/-- Tries a match at an offset. -/
abbrev Attempt := Nat → Option Match

namespace Match

mutual

-- There is no derived instance for a tree whose nodes hold lists of trees.
def decEq : (m n : Match) → Decidable (m = n)
  | ⟨s, h, ms⟩, ⟨s', h', ns⟩ =>
    have := decEqList ms ns
    decidable_of_iff (s = s' ∧ h = h' ∧ ms = ns) (by simp)

def decEqList : (ms ns : List Match) → Decidable (ms = ns)
  | [], [] => isTrue rfl
  | [], _ :: _ => isFalse nofun
  | _ :: _, [] => isFalse nofun
  | m :: ms, n :: ns =>
    have := decEq m n
    have := decEqList ms ns
    decidable_of_iff (m = n ∧ ms = ns) (by simp)

end

instance : DecidableEq Match := decEq

def leaf (start stop : Nat) : Match := ⟨⟨start, stop⟩, none, []⟩

/-- Where the last of consecutive matches ends, if the first begins at `start`. -/
def stopOf (start : Nat) (ms : List Match) : Nat := (ms.getLast?.map (·.span.stop)).getD start

def joined (start : Nat) (ms : List Match) : Match := ⟨⟨start, stopOf start ms⟩, none, ms⟩

def chain : List Attempt → Nat → Option (List Match)
  | [], _ => some []
  | a :: as, pos => do
    let m ← a pos
    let ms ← chain as m.span.stop
    return m :: ms

def sequence (as : List Attempt) : Attempt := fun start => (chain as start).map (joined start)

def branch (as : List Attempt) : Attempt := fun start =>
  as.zipIdx.findSome? fun (a, i) => (a start).map fun m => ⟨⟨start, m.span.stop⟩, some i, [m]⟩

/-- The match of the first attempt that succeeds at `pos`, and the attempts not used. -/
def firstFit (pos : Nat) : List (Attempt × Nat) → Option ((Match × Nat) × List (Attempt × Nat))
  | [] => none
  | (a, i) :: as =>
    match a pos with
    | some m => some ((m, i), as)
    | none => (firstFit pos as).map fun (fit, unused) => (fit, (a, i) :: unused)

theorem length_of_firstFit {pos : Nat} {as unused : List (Attempt × Nat)} {fit : Match × Nat}
    (h : firstFit pos as = some (fit, unused)) : as.length = unused.length + 1 := by
  induction as generalizing unused fit with
  | nil => simp [firstFit] at h
  | cons a as ih =>
    rw [firstFit] at h
    split at h
    · obtain ⟨_, rfl⟩ := Prod.mk.inj (Option.some.inj h)
      rfl
    · obtain ⟨⟨f, u⟩, hu, hr⟩ := Option.map_eq_some_iff.1 h
      obtain ⟨_, rfl⟩ := Prod.mk.inj hr
      simp [ih hu]

/-- Every attempt once, at each place the first that fits. Nothing is taken back. -/
def arrange (as : List (Attempt × Nat)) (pos : Nat) : Option (List (Match × Nat)) :=
  if as.isEmpty then some []
  else
    match _h : firstFit pos as with
    | none => none
    | some (fit, unused) => (arrange unused fit.1.span.stop).map (fit :: ·)
termination_by as.length
decreasing_by
  have := length_of_firstFit _h
  omega

/-- Every attempt once, in the order that `arrange` finds. The children are listed in the order of
the attempts. -/
def permutation (as : List Attempt) : Attempt := fun start =>
  (arrange as.zipIdx start).map fun ms =>
    { joined start (ms.map Prod.fst) with
      children := (ms.mergeSort fun m n => m.2 ≤ n.2).map Prod.fst }

/-- How often to repeat. A greedy repetition goes on after `min`. -/
structure Bounds where
  min : Nat
  max : Nat
  greedy : Bool
deriving DecidableEq, Repr

def Bounds.wants (b : Bounds) (count : Nat) : Bool := count < b.max && (b.greedy || count < b.min)

/-- Matches of one attempt, each where the one before ended. An empty one is the last, and so would
be one that leads out of the range up to `e`. -/
def repetitions (b : Bounds) (a : Attempt) (e count pos : Nat) : List Match :=
  if b.wants count then
    match a pos with
    | none => []
    | some m =>
      if pos < m.span.stop ∧ m.span.stop ≤ e then m :: repetitions b a e (count + 1) m.span.stop
      else [m]
  else []
termination_by e - pos

/-- Enough repetitions, or fewer of which the last is empty, as it could be repeated for ever. -/
def iterations (b : Bounds) (a : Attempt) (e : Nat) : Attempt := fun start =>
  let ms := repetitions b a e 0 start
  if b.min ≤ ms.length || ms.getLast?.any (·.span.isEmpty) then some (joined start ms) else none

end Match

end Recognition
