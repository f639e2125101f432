namespace Recognition

/-- The offsets from `start` up to, but not including, `stop`. -/
structure Span where
  start : Nat
  stop : Nat
deriving DecidableEq, Repr, Inhabited

namespace Span

def empty (pos : Nat) : Span := ⟨pos, pos⟩

def length (s : Span) : Nat := s.stop - s.start

def isEmpty (s : Span) : Bool := s.start == s.stop

def cover (s t : Span) : Span := ⟨min s.start t.start, max s.stop t.stop⟩

instance : Membership Nat Span := ⟨fun s pos => s.start ≤ pos ∧ pos < s.stop⟩

instance (pos : Nat) (s : Span) : Decidable (pos ∈ s) :=
  inferInstanceAs (Decidable (s.start ≤ pos ∧ pos < s.stop))

instance : Ord Span := ⟨fun s t => (compare s.start t.start).then (compare s.stop t.stop)⟩

instance : ToString Span := ⟨fun s => toString s.start ++ ".." ++ toString s.stop⟩

end Span

end Recognition
