import Recognition.Scalar.Ranges
import Recognition.Sgml.Delimiter
import Recognition.Sgml.Entity

namespace Recognition.Sgml

def combiningMarks : Scalar.Ranges :=
  [(0x300, 0x36F), (0x1AB0, 0x1AFF), (0x1DC0, 0x1DFF), (0x20D0, 0x20FF), (0xFE20, 0xFE2F)]

def isCombining (c : Char) : Bool := combiningMarks.contains c

/-- Puts `c` in front, to the first cluster if that begins with a combining mark. -/
def consCluster (c : Char) : List (List Char) → List (List Char)
  | (m :: ms) :: rest => if isCombining m then (c :: m :: ms) :: rest else [c] :: (m :: ms) :: rest
  | rest => [c] :: rest

/-- A character with the combining marks after it, again and again. -/
def clusters (text : List Char) : List (List Char) := text.foldr consCluster []

def hexDigit (n : Nat) : Char :=
  if n < 10 then Char.ofNat ('0'.toNat + n) else Char.ofNat ('a'.toNat + (n - 10))

def hexDigits (n : Nat) : List Char :=
  if n < 16 then [hexDigit n] else hexDigits (n / 16) ++ [hexDigit (n % 16)]
termination_by n

def named (name : List Char) : List Char := '&' :: name ++ [';']

/-- By name, in itself if it is ASCII, or by number. -/
def encodeScalar (c : Char) : List Char :=
  match nameOf? [c] with
  | some name => named name
  | none => if c.toNat < 0x80 then [c] else '&' :: '#' :: 'x' :: hexDigits c.toNat ++ [';']

def isVerbatim (what : EscapeSet) (c : Char) : Bool :=
  c.toNat < 0x80 && c ≠ '&' && !what.full && !what.covers c

def encodeCluster (what : EscapeSet) : List Char → List Char
  | [c] => if isVerbatim what c then [c] else encodeScalar c
  | cluster =>
    match nameOf? cluster with
    | some name => named name
    -- No scalar of a cluster is left to stand for itself if it has a name.
    | none => cluster.flatMap encodeScalar

/-- The text in ASCII, with references for `&`, for the delimiters of `what` and for all that is not
ASCII. -/
def encode (what : EscapeSet) (text : List Char) : List Char :=
  (clusters text).flatMap (encodeCluster what)

theorem flatten_consCluster (c : Char) (cs : List (List Char)) :
    (consCluster c cs).flatten = c :: cs.flatten := by
  unfold consCluster
  split
  · split <;> simp
  · simp

theorem flatten_clusters (text : List Char) : (clusters text).flatten = text := by
  induction text with
  | nil => rfl
  | cons c cs ih => rw [clusters, List.foldr_cons, flatten_consCluster, ← clusters, ih]

end Recognition.Sgml
