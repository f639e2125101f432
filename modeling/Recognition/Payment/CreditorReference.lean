import Recognition.Payment.Checksum
import Recognition.Payment.Reading

namespace Recognition.Payment

/-- A structured creditor reference: `RF`, two check digits and up to 21 letters and digits. -/
structure CreditorReference where
  span : Span
  checkDigits : List Char
  /-- In capitals and without separators, with zeros in front up to `width`. -/
  reference : List Char
  isValid : Bool
deriving DecidableEq, Repr

namespace CreditorReference

def width : Nat := 21

def groupLength : Nat := 4

/-- The letters and digits after the first `count`, with a separator before any group, and the
offset after. Nothing if there are more than `room`. -/
def readFrom (r : Reading) (sep : Separator) (room count pos : Nat) :
    Option (List Char × Nat) :=
  let pos := if count % groupLength = 0 then (r.separator? sep pos).getD pos else pos
  match r.alnum? pos with
  | none => some ([], pos)
  | some (c, next) =>
    match room with
    -- One character too many spoils the reference.
    | 0 => none
    | room + 1 => (readFrom r sep room (count + 1) next).map fun (cs, stop) => (c :: cs, stop)

def pad (cs : List Char) : List Char := List.replicate (width - cs.length) '0' ++ cs

def isValidReference (reference checkDigits : List Char) : Bool :=
  remainder97 (reference ++ ['R', 'F'] ++ checkDigits) == 1

def read? (r : Reading) (sep : Separator) (start : Nat) : Option CreditorReference := do
  let (letters, checkDigits, pos) ← r.head? start
  if letters ≠ ['R', 'F'] then none
  else
    let (cs, stop) ← readFrom r sep width 0 pos
    if cs.isEmpty then none
    else some ⟨⟨start, stop⟩, checkDigits, pad cs, isValidReference (pad cs) checkDigits⟩

def recognizer (sep : Separator) : Recognizer CreditorReference :=
  Reading.recognizer (read? · sep) CreditorReference.span

end CreditorReference

end Recognition.Payment
