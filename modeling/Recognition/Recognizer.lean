import Recognition.Fault
import Recognition.Source

namespace Recognition

structure Flags where
  ignoreCase : Bool
  /-- Spaces may be line breaks. -/
  multiline : Bool
deriving DecidableEq, Repr

namespace Flags

def none : Flags := ⟨false, false⟩

def union (f g : Flags) : Flags := ⟨f.ignoreCase || g.ignoreCase, f.multiline || g.multiline⟩

def contains (f g : Flags) : Bool :=
  (!g.ignoreCase || f.ignoreCase) && (!g.multiline || f.multiline)

end Flags

structure Recognizer (α : Type) where
  /-- What begins at `start`, in a source read up to a bound if one is given. -/
  recognize : Source → (start : Nat) → (stop : Option Nat) → Flags → Option α
  span : α → Span

namespace Recognizer

variable {α : Type}

/-- As `recognize`, but a range that the source does not have is a fault. -/
def tryRecognize (r : Recognizer α) (src : Source) (start : Nat) (stop : Option Nat)
    (flags : Flags) : Except Fault (Option α) :=
  (checkRange src.size start stop).map fun e => r.recognize src start (some e) flags

def searchFrom (r : Recognizer α) (src : Source) (flags : Flags) (e pos : Nat) : Option α :=
  if pos ≤ e then
    match r.recognize src pos (some e) flags with
    | some found => some found
    | none =>
      match _h : src.glyph? pos e with
      | some g => r.searchFrom src flags e (pos + g.width)
      | none => none
  else none
termination_by e - pos
decreasing_by
  have := Source.glyph?_bounds _h
  omega

def search (r : Recognizer α) (src : Source) (start : Nat) (stop : Option Nat) (flags : Flags) :
    Option α :=
  r.searchFrom src flags (src.limit stop) start

/-- All that is found, each after the one before. An empty find is the last. -/
def scanFrom (r : Recognizer α) (src : Source) (flags : Flags) (e pos : Nat) : List α :=
  if pos ≤ e then
    match r.searchFrom src flags e pos with
    | none => []
    | some found =>
      if (r.span found).isEmpty then [found]
      else if pos < (r.span found).stop then found :: r.scanFrom src flags e (r.span found).stop
      else [found]
  else []
termination_by e + 1 - pos

def scan (r : Recognizer α) (src : Source) (start : Nat) (stop : Option Nat) (flags : Flags) :
    List α :=
  r.scanFrom src flags (src.limit stop) start

def spans (r : Recognizer α) : Recognizer Span where
  recognize src start stop flags := (r.recognize src start stop flags).map r.span
  span := id

end Recognizer

end Recognition
