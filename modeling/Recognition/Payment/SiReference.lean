import Recognition.Payment.Checksum
import Recognition.Payment.Reading

namespace Recognition.Payment

namespace SiReference

structure Part where
  span : Span
  digits : List Char
deriving DecidableEq, Repr

end SiReference

/-- A Slovenian payment reference: `SI`, a model of two digits and parts joined by `-`. The model
says how many parts there are and which of them end in a control digit. -/
structure SiReference where
  span : Span
  model : List Char
  /-- At most three. -/
  parts : List SiReference.Part
  isValid : Bool
deriving DecidableEq, Repr

namespace SiReference

def digitsFrom (r : Reading) (pos : Nat) : List Char × Nat :=
  match _h : r.digit? pos with
  | none => ([], pos)
  | some (c, next) =>
    let rest := digitsFrom r next
    (c :: rest.1, rest.2)
termination_by r.stop - pos
decreasing_by
  have := Reading.digit?_bounds _h
  omega

def part? (r : Reading) (pos : Nat) : Option Part :=
  let (digits, stop) := digitsFrom r pos
  if digits.isEmpty then none else some ⟨⟨pos, stop⟩, digits⟩

def dash? (r : Reading) (pos : Nat) : Option Nat :=
  ((r.char? pos).filter (·.1 == '-')).map Prod.snd

def partsFrom (r : Reading) : (count pos : Nat) → List Part
  | 0, _ => []
  | count + 1, pos =>
    match part? r pos with
    | none => []
    | some p =>
      p :: match dash? r p.span.stop with
        | none => []
        | some next => partsFrom r count next

def maxPart : Nat := 12

def maxTotal : Nat := 20

/-- A part has at most twelve digits, all together at most twenty. A single part of model 12 may
have one more. -/
def lengthsFit (model : List Char) : List (List Char) → Bool
  | [] => false
  | [p] => p.length ≤ if model = ['1', '2'] then maxPart + 1 else maxPart
  | ps => ps.all (·.length ≤ maxPart) && ps.flatten.length ≤ maxTotal

/-- Whether the model takes so many parts and their control digits are right. -/
def modelFits (model : List Char) (parts : List (List Char)) : Bool :=
  match model, parts with
  | ['0', '0'], _ :: _ => true
  | ['0', '1'], p :: ps => isControlled (p :: ps)
  | ['0', '2'], [_, q, r] => isControlled [q] && isControlled [r]
  | ['0', '3'], [p, q, r] => isControlled [p] && isControlled [q] && isControlled [r]
  | ['0', '4'], [p, _, r] => isControlled [p] && isControlled [r]
  | ['0', '5'], p :: _ | ['5', '5'], p :: _ => isControlled [p]
  | ['0', '6'], [_, q] => isControlled [q]
  | ['0', '6'], [_, q, r] => isControlled [q, r]
  | ['0', '7'], _ :: q :: _ => isControlled [q]
  | ['0', '8'], [p, q, r] => isControlled [p, q] && isControlled [r]
  | ['0', '9'], [p] => isControlled [p]
  | ['0', '9'], p :: q :: _ => isControlled [p, q]
  | ['1', '0'], [p, q] => isControlled [p] && isControlled [q]
  | ['1', '0'], [p, q, r] => isControlled [p] && isControlled [q, r]
  | ['1', '1'], p :: q :: _ | ['1', '8'], p :: q :: _ | ['1', '9'], p :: q :: _
  | ['2', '8'], p :: q :: _ | ['3', '8'], p :: q :: _ | ['4', '0'], p :: q :: _
  | ['4', '1'], p :: q :: _ | ['4', '8'], p :: q :: _ | ['4', '9'], p :: q :: _
  | ['5', '1'], p :: q :: _ | ['5', '8'], p :: q :: _ => isControlled [p] && isControlled [q]
  | ['1', '2'], [p] => isControlled [p]
  | ['2', '1'], [p, _] | ['3', '1'], [p, _] => isControlled [p]
  | _, _ => false

def isValidReference (model : List Char) (parts : List (List Char)) : Bool :=
  lengthsFit model parts && modelFits model parts

def read? (r : Reading) (sep : Separator) (start : Nat) : Option SiReference := do
  let (letters, model, pos) ← r.head? start
  if letters ≠ ['S', 'I'] then none
  else if model = ['9', '9'] then some ⟨⟨start, pos⟩, model, [], true⟩
  else
    let parts := partsFrom r 3 ((r.separator? sep pos).getD pos)
    let stop := (parts.getLast?.map (·.span.stop)).getD pos
    some ⟨⟨start, stop⟩, model, parts, isValidReference model (parts.map Part.digits)⟩

def recognizer (sep : Separator) : Recognizer SiReference :=
  Reading.recognizer (read? · sep) SiReference.span

end SiReference

end Recognition.Payment
