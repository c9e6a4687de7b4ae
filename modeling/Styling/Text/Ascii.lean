/-!
# ASCII case

Names in style text are compared without regard to the case of ASCII letters, and of no other
letters: the Kelvin sign is not a `k`.
-/

namespace Styling.Text

/-- The text with its ASCII capitals made small. -/
def asciiLower (s : String) : String := String.ofList (s.toList.map Char.toLower)

/-- Equality up to the case of ASCII letters. -/
def eqIgnoringAsciiCase (a b : String) : Bool := asciiLower a == asciiLower b

end Styling.Text
