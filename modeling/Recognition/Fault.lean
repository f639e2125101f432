import Recognition.Span

namespace Recognition

/-- The largest offset. In a range it also stands for an end bound that was not given. -/
def maxOffset : Nat := 0xFFFFFFFFFFFFFFFF

inductive Fault where
  /-- The range starts after its end, or after the text if no end was given. -/
  | startPastEnd (start : Nat) (stop : Option Nat)
  | endPastInput (start stop : Nat)
  /-- A breakpoint at these two offsets cannot be moved that far. -/
  | offsetOverflow (source target : Nat)
deriving DecidableEq, Repr

namespace Fault

def code : Fault → Nat
  | startPastEnd .. => 0
  | endPastInput .. => 1
  | offsetOverflow .. => 2

def cause : Fault → String
  | startPastEnd .. => "start past end"
  | endPastInput .. => "end past input"
  | offsetOverflow .. => "offset overflow"

def offsets : Fault → Nat × Nat
  | startPastEnd start stop => (start, stop.getD maxOffset)
  | endPastInput start stop => (start, stop)
  | offsetOverflow source target => (source, target)

def span (f : Fault) : Span := ⟨min f.offsets.1 f.offsets.2, max f.offsets.1 f.offsets.2⟩

def message (f : Fault) : String :=
  f.cause ++ " at " ++ toString f.offsets.1 ++ ".." ++ toString f.offsets.2

end Fault

/-- The end of the range from `start` in a text of `size` units, or why there is none. An end past
the text is noticed before a start past the end. -/
def checkRange (size start : Nat) (stop : Option Nat) : Except Fault Nat :=
  match stop with
  | none => if start ≤ size then .ok size else .error (.startPastEnd start none)
  | some e =>
    if size < e then .error (.endPastInput start e)
    else if start ≤ e then .ok e
    else .error (.startPastEnd start (some e))

end Recognition
