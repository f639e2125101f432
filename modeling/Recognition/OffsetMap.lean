import Recognition.Fault

namespace Recognition

structure Breakpoint where
  source : Nat
  target : Nat
deriving DecidableEq, Repr

namespace Breakpoint

def identity (pos : Nat) : Breakpoint := ⟨pos, pos⟩

def swap (b : Breakpoint) : Breakpoint := ⟨b.target, b.source⟩

/-- The sum on both sides, if both are offsets. -/
def add? (a b : Breakpoint) : Option Breakpoint :=
  if a.source + b.source ≤ maxOffset ∧ a.target + b.target ≤ maxOffset then
    some ⟨a.source + b.source, a.target + b.target⟩
  else none

end Breakpoint

/-- Breakpoints that increase on both sides, or repeat. -/
abbrev OffsetMap := List Breakpoint

namespace OffsetMap

/-- Where `x` lies in the rewritten text: as far past the last breakpoint as in the source, and
before the first breakpoint where it is, but not past it. -/
def toTarget (map : OffsetMap) (x : Nat) : Nat :=
  match map.find? (·.source = x) with
  -- Breakpoints that repeat agree, so the first will do.
  | some b => b.target
  | none =>
    match (map.takeWhile (·.source < x)).getLast? with
    | some b => min (b.target + (x - b.source)) maxOffset
    | none =>
      match map.head? with
      | some b => min x b.target
      | none => x

def swap (map : OffsetMap) : OffsetMap := map.map Breakpoint.swap

def toSource (map : OffsetMap) (y : Nat) : Nat := map.swap.toTarget y

theorem toTarget_of_mem {map : OffsetMap} {b : Breakpoint} (hb : b ∈ map)
    (huniq : ∀ c ∈ map, c.source = b.source → c = b) : map.toTarget b.source = b.target := by
  rw [toTarget]
  cases h : map.find? (·.source = b.source) with
  | none => simpa using List.find?_eq_none.1 h b hb
  | some c =>
    have hc : c.source = b.source := by simpa using List.find?_some h
    rw [huniq c (List.mem_of_find?_eq_some h) hc]

end OffsetMap

end Recognition
