namespace Recognition.Payment

/-- The number written by `cs` after the digits of `n`. Anything but a digit or a capital is passed
over. -/
def numeralFrom (n : Nat) : List Char → Nat
  | [] => n
  | c :: cs =>
    if c.isDigit then numeralFrom (n * 10 + (c.toNat - '0'.toNat)) cs
    else if c.isUpper then numeralFrom (n * 100 + (c.toNat - 'A'.toNat + 10)) cs
    else numeralFrom n cs

/-- The decimal number that digits and capitals write, `A` being 10. -/
def numeral (cs : List Char) : Nat := numeralFrom 0 cs

def step97 (r : Nat) (c : Char) : Nat :=
  if c.isDigit then (r * 10 + (c.toNat - '0'.toNat)) % 97
  else if c.isUpper then (r * 100 + (c.toNat - 'A'.toNat + 10)) % 97
  else r

def remainder97 (cs : List Char) : Nat := cs.foldl step97 0

theorem foldl_step97 (cs : List Char) (n : Nat) :
    cs.foldl step97 (n % 97) = numeralFrom n cs % 97 := by
  induction cs generalizing n with
  | nil => rfl
  | cons c cs ih =>
    rw [List.foldl_cons, numeralFrom]
    split
    · rename_i hd
      rw [← ih, step97, if_pos hd]
      congr 1
      omega
    · rename_i hd
      split
      · rename_i hu
        rw [← ih, step97, if_neg hd, if_pos hu]
        congr 1
        omega
      · rename_i hu
        rw [← ih, step97, if_neg hd, if_neg hu]

theorem remainder97_eq (cs : List Char) : remainder97 cs = numeral cs % 97 :=
  foldl_step97 cs 0

def digitValue? (c : Char) : Option Nat :=
  if c.isDigit then some (c.toNat - '0'.toNat) else none

/-- The sum of digits weighted 2, 3, 4, … from the right, by its remainder. -/
def weightedSum11 (digits : List Nat) : Nat :=
  (digits.reverse.zipIdx 2).foldl (fun sum (d, weight) => (sum + d * weight) % 11) 0

/-- The digit that completes `digits`: what the sum lacks to a multiple of 11, and 0 for 10 or 11.
-/
def controlDigit (digits : List Nat) : Nat :=
  let lack := 11 - weightedSum11 digits
  if 10 ≤ lack then 0 else lack

/-- Whether the parts, taken together, are all digits and the last completes the others. -/
def isControlled (parts : List (List Char)) : Bool :=
  match parts.flatten.mapM digitValue? with
  | none => false
  | some digits =>
    match digits.getLast? with
    | none => false
    | some last => controlDigit digits.dropLast == last

end Recognition.Payment
