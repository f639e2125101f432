namespace Recognition.Http

namespace Byte

def tab : UInt8 := 0x09
def lf : UInt8 := 0x0A
def cr : UInt8 := 0x0D
def quote : UInt8 := 0x22
def dollar : UInt8 := 0x24
def ampersand : UInt8 := 0x26
def asterisk : UInt8 := 0x2A
def comma : UInt8 := 0x2C
def hyphen : UInt8 := 0x2D
def dot : UInt8 := 0x2E
def slash : UInt8 := 0x2F
def colon : UInt8 := 0x3A
def semicolon : UInt8 := 0x3B
def equals : UInt8 := 0x3D
def question : UInt8 := 0x3F
def backslash : UInt8 := 0x5C

end Byte

open Byte

/-- White space that does not break a line. -/
def isBlank (b : UInt8) : Bool := b == 0x20 || b == tab || b == 0x0B || b == 0x0C

def isSpace (b : UInt8) : Bool := isBlank b || b == lf || b == cr

def isControl (b : UInt8) : Bool := b < 0x20 || b == 0x7F

/-- One of `( ) < > @ , ; : \ " / [ ] ? =` or a brace. -/
def isSeparator (b : UInt8) : Bool :=
  [0x28, 0x29, 0x3C, 0x3E, 0x40, 0x2C, 0x3B, 0x3A, 0x5C, 0x22, 0x2F, 0x5B, 0x5D, 0x3F, 0x3D, 0x7B,
    0x7D].contains b

def isTokenByte (b : UInt8) : Bool := !isControl b && !isSeparator b && !isSpace b

def isCookieByte (b : UInt8) : Bool :=
  !isControl b && !isSpace b && b != quote && b != comma && b != semicolon && b != backslash

def isDigit (b : UInt8) : Bool := 0x30 ≤ b && b ≤ 0x39

def isLetter (b : UInt8) : Bool := (0x41 ≤ b && b ≤ 0x5A) || (0x61 ≤ b && b ≤ 0x7A)

def toLower (b : UInt8) : UInt8 := if 0x41 ≤ b && b ≤ 0x5A then b + 0x20 else b

def sameIgnoringCase (a b : List UInt8) : Bool := a.map toLower == b.map toLower

def decimal (digits : List UInt8) : Nat := digits.foldl (fun n b => n * 10 + (b.toNat - 0x30)) 0

end Recognition.Http
