import Recognition.Payment.Checksum
import Recognition.Payment.Country
import Recognition.Payment.Reading

namespace Recognition.Payment

/-- An international bank account number as found, in capitals and without separators. -/
structure Iban where
  span : Span
  country : List Char
  checkDigits : List Char
  bban : List Char
  isValid : Bool
deriving DecidableEq, Repr

namespace Iban

/-- The most characters of an account number of an unknown country. -/
def maxBban : Nat := 30

def room (country : List Char) : Nat :=
  match countryOf? country with
  | some c => c.length - 4
  | none => maxBban

/-- Up to `room` letters and digits, with separators before any of them, and the offset after. -/
def readBban (r : Reading) (sep : Separator) (room pos : Nat) : List Char × Nat :=
  match room with
  | 0 => ([], pos)
  | room + 1 =>
    match _h : r.separator? sep pos with
    -- A letter or a digit follows, and only that takes up room.
    | some next => readBban r sep (room + 1) next
    | none =>
      match _h : r.alnum? pos with
      | none => ([], pos)
      | some (c, next) =>
        let rest := readBban r sep room next
        (c :: rest.1, rest.2)
termination_by room + (r.stop - pos)
decreasing_by
  · have := Reading.separator?_bounds _h
    omega
  · have := Reading.alnum?_bounds _h
    omega

/-- A known country, its length, its check digits if it has any, and the remainder 1 by 97 of the
number with the country and the check digits at the end. -/
def isValidNumber (country checkDigits bban : List Char) : Bool :=
  (countryOf? country).any (fun c =>
    c.length == bban.length + 4 && c.checkDigits.all (· == checkDigits)) &&
  remainder97 (bban ++ country ++ checkDigits) == 1

def read? (r : Reading) (sep : Separator) (start : Nat) : Option Iban := do
  let (country, checkDigits, pos) ← r.head? start
  let (bban, stop) := readBban r sep (room country) pos
  if bban.isEmpty then none
  else some ⟨⟨start, stop⟩, country, checkDigits, bban, isValidNumber country checkDigits bban⟩

def recognizer (sep : Separator) : Recognizer Iban :=
  Reading.recognizer (read? · sep) Iban.span

end Iban

end Recognition.Payment
