/-!
# Classes of code points

The classes by which tokens are told apart, as tests on code point numbers, so that they are also
defined on the surrogates, which are no characters.
-/

namespace Styling.Source.CodePoint

def isDigit (n : Nat) : Bool := 0x30 ≤ n && n ≤ 0x39

def isHexDigit (n : Nat) : Bool :=
  isDigit n || (0x41 ≤ n && n ≤ 0x46) || (0x61 ≤ n && n ≤ 0x66)

def isLetter (n : Nat) : Bool := (0x41 ≤ n && n ≤ 0x5A) || (0x61 ≤ n && n ≤ 0x7A)

/-- The code points outside ASCII that may stand anywhere in an identifier. -/
def isNonAsciiIdent (n : Nat) : Bool :=
  n == 0xB7 || (0xC0 ≤ n && n ≤ 0xD6) || (0xD8 ≤ n && n ≤ 0xF6) || (0xF8 ≤ n && n ≤ 0x37D) ||
    (0x37F ≤ n && n ≤ 0x1FFF) || n == 0x200C || n == 0x200D || n == 0x203F || n == 0x2040 ||
    (0x2070 ≤ n && n ≤ 0x218F) || (0x2C00 ≤ n && n ≤ 0x2FEF) || (0x3001 ≤ n && n ≤ 0xD7FF) ||
    (0xF900 ≤ n && n ≤ 0xFDCF) || (0xFDF0 ≤ n && n ≤ 0xFFFD) || 0x10000 ≤ n

def isIdentStart (n : Nat) : Bool := isLetter n || isNonAsciiIdent n || n == 0x5F

def isIdent (n : Nat) : Bool := isIdentStart n || isDigit n || n == 0x2D

/-- The one line break left after filtering. -/
def isNewline (n : Nat) : Bool := n == 0x0A

def isWhitespace (n : Nat) : Bool := isNewline n || n == 0x09 || n == 0x20

def isNonPrintable (n : Nat) : Bool :=
  n ≤ 0x08 || n == 0x0B || (0x0E ≤ n && n ≤ 0x1F) || n == 0x7F

def isSurrogate (n : Nat) : Bool := 0xD800 ≤ n && n ≤ 0xDFFF

/-- What may begin an identifier may also continue it. -/
theorem isIdent_of_isIdentStart {n : Nat} (h : isIdentStart n) : isIdent n := by
  simp [isIdent, h]

end Styling.Source.CodePoint
