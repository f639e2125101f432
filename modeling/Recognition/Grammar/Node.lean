import Recognition.Classifier
import Recognition.Grammar.Match
import Recognition.Recognizer
import Recognition.Sgml.Decoding

namespace Recognition

/-- A rule. Other rules are named by their numbers. -/
inductive Node where
  | noop
  | any
  /-- A glyph with these scalars. -/
  | char (scalars : List Char) (invert : Bool)
  /-- A glyph whose scalars stand together in `members`. -/
  | set (members : List Char) (invert : Bool)
  | space (invert : Bool)
  | punct (invert : Bool)
  | spaceOrPunct (invert : Bool)
  | lineStart (invert : Bool)
  | lineEnd (invert : Bool)
  | literal (text : List Char)
  | sequence (children : List Nat)
  | branch (children : List Nat)
  | permutation (children : List Nat)
  | iterations (child : Nat) (bounds : Match.Bounds)
deriving DecidableEq, Repr

namespace Classifier

/-- Whether two characters are the same, or differ in case where that does not matter. -/
def same (c : Classifier) (flags : Flags) (a b : Char) : Bool :=
  a == b || (flags.ignoreCase && c.fold a == c.fold b)

/-- What is left of `text` after scalars that are the same as `cs`. -/
def strip? (c : Classifier) (flags : Flags) : (cs text : List Char) → Option (List Char)
  | [], text => some text
  | _ :: _, [] => none
  | a :: as, b :: bs => if c.same flags a b then c.strip? flags as bs else none

def sameText (c : Classifier) (flags : Flags) (as bs : List Char) : Bool :=
  c.strip? flags as bs == some []

def position? (c : Classifier) (flags : Flags) (cs : List Char) : List Char → Option Nat
  | [] => none
  | m :: ms =>
    if (c.strip? flags cs (m :: ms)).isSome then some 0
    else (c.position? flags cs ms).map (· + 1)

/-- Line breaks are spaces only if a match may run over lines. -/
def isSpaceWith (c : Classifier) (flags : Flags) (x : Char) : Bool :=
  c.isSpace x && (flags.multiline || !(x == '\n' || x == '\r'))

theorem length_strip? {c : Classifier} {flags : Flags} {as text rest : List Char}
    (h : c.strip? flags as text = some rest) : text.length = as.length + rest.length := by
  induction as generalizing text with
  | nil => simp [strip?] at h; simp [h]
  | cons a as ih =>
    match text with
    | [] => simp [strip?] at h
    | b :: bs =>
      rw [strip?] at h
      split at h
      · simp only [List.length_cons, ih h]
        omega
      · simp at h

end Classifier

/-- What a rule is tried in. -/
structure Matching where
  classifier : Classifier
  source : Source
  flags : Flags
  stop : Nat

namespace Matching

variable (m : Matching)

def glyph (invert : Bool) (test : Glyph → Bool) : Attempt := fun pos =>
  ((m.source.glyph? pos m.stop).filter fun g => test g != invert).map fun g =>
    .leaf pos (pos + g.width)

/-- A glyph of which all scalars, or not all, are of a class. -/
def ofClass (invert : Bool) (test : Char → Bool) : Attempt :=
  m.glyph invert fun g => g.scalars.all test

/-- A glyph of a set, told by its place there, or one that is not. -/
def member (invert : Bool) (members : List Char) : Attempt := fun pos => do
  let g ← m.source.glyph? pos m.stop
  match m.classifier.position? m.flags g.scalars members, invert with
  | some i, false => some { Match.leaf pos (pos + g.width) with hit := some i }
  | none, true => some (.leaf pos (pos + g.width))
  | _, _ => none

def place (invert : Bool) (test : Nat → Bool) : Attempt := fun pos =>
  if test pos != invert then some (.leaf pos pos) else none

def atLineStart (pos : Nat) : Bool :=
  pos == 0 || (m.source.unit? (pos - 1)).any isLineBreak

def atLineEnd (pos : Nat) : Bool :=
  m.source.atEnd pos m.stop || (m.source.unit? pos).any isLineBreak

/-- Where glyphs end whose scalars, taken together, are the same as `text`. -/
def literalEnd? (text : List Char) (pos : Nat) : Option Nat :=
  if text.isEmpty then some pos
  else
    match m.source.glyph? pos m.stop with
    | none => none
    | some g =>
      match _h : m.classifier.strip? m.flags g.scalars text with
      | none => none
      | some rest => literalEnd? rest (pos + g.width)
termination_by text.length
decreasing_by
  have := Classifier.length_strip? _h
  have := g.scalars_length_pos
  omega

def attempt (sub : Nat → Attempt) : Node → Attempt
  | .noop => fun pos => some (.leaf pos pos)
  | .any => m.glyph false fun _ => true
  | .char scalars invert => m.glyph invert fun g => m.classifier.sameText m.flags g.scalars scalars
  | .set members invert => m.member invert members
  | .space invert => m.ofClass invert (m.classifier.isSpaceWith m.flags)
  | .punct invert => m.ofClass invert m.classifier.isPunct
  | .spaceOrPunct invert =>
    m.ofClass invert fun c => m.classifier.isSpaceWith m.flags c || m.classifier.isPunct c
  | .lineStart invert => place invert m.atLineStart
  | .lineEnd invert => place invert m.atLineEnd
  | .literal text => fun pos => (m.literalEnd? text pos).map (.leaf pos)
  | .sequence children => Match.sequence (children.map sub)
  | .branch children => Match.branch (children.map sub)
  | .permutation children => Match.permutation (children.map sub)
  | .iterations child bounds => Match.iterations bounds (sub child) m.stop

end Matching

namespace Node

/-- The rule for what this one does not match, if it takes one glyph or tells a place. -/
def inverse? : Node → Option Node
  | char scalars invert => some (char scalars !invert)
  | set members invert => some (set members !invert)
  | space invert => some (space !invert)
  | punct invert => some (punct !invert)
  | spaceOrPunct invert => some (spaceOrPunct !invert)
  | lineStart invert => some (lineStart !invert)
  | lineEnd invert => some (lineEnd !invert)
  | _ => none

def sgmlChar (text : List Char) : Node := char (Sgml.decode .none text) false

def sgmlSet (text : List Char) : Node := set (Sgml.decode .none text) false

def sgmlLiteral (text : List Char) : Node := literal (Sgml.decode .none text)

end Node

end Recognition
