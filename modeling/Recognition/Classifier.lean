import Recognition.Scalar.Identifier
import Recognition.Scalar.Lowercase
import Recognition.Scalar.WhiteSpace

namespace Recognition

structure Classifier where
  isSpace : Char → Bool
  isPunct : Char → Bool
  /-- The form in which characters are compared when case does not matter. -/
  fold : Char → Char

namespace Classifier

def isAscii (c : Char) : Bool := c.toNat < 0x80

def isAsciiPunct (c : Char) : Bool :=
  let n := c.toNat
  (0x21 ≤ n && n ≤ 0x2F) || (0x3A ≤ n && n ≤ 0x40) || (0x5B ≤ n && n ≤ 0x60) ||
    (0x7B ≤ n && n ≤ 0x7E)

def isControl (c : Char) : Bool := c.toNat < 0x20 || (0x7F ≤ c.toNat && c.toNat < 0xA0)

def ascii : Classifier where
  isSpace c := c == ' ' || (0x9 ≤ c.toNat && c.toNat ≤ 0xD)
  isPunct := isAsciiPunct
  fold c := c.toLower

/-- Unicode's classes. Beyond ASCII, punctuation is what is neither part of an identifier, nor white
space, nor a control. -/
def unicode : Classifier where
  isSpace := Scalar.isWhiteSpace
  isPunct c :=
    if isAscii c then isAsciiPunct c
    else !Scalar.isIdentifierPart c && !Scalar.isWhiteSpace c && !isControl c
  fold := Scalar.toLowercase

theorem eq_of_isAscii {f g : Char → Bool} (heq : ∀ n < 0x80, f (Char.ofNat n) = g (Char.ofNat n))
    {c : Char} (h : isAscii c = true) : f c = g c := by
  rw [← Char.ofNat_toNat c]
  exact heq _ (of_decide_eq_true h)

end Classifier

end Recognition
