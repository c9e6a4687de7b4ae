/-!
# Text files

The bytes of a text file are read as UTF-8, strictly: overlong forms, surrogates and numbers beyond
the last code point are refused. Every form of line break becomes a line feed.
-/

namespace Styling.Text

private def continuation? (b : UInt8) : Option Nat :=
  if 0x80 ≤ b && b ≤ 0xBF then some (b.toNat - 0x80) else none

private def charAbove? (least n : Nat) : Option Char :=
  if least ≤ n && n ≤ 0x10FFFF && !(0xD800 ≤ n && n ≤ 0xDFFF) then some (Char.ofNat n) else none

def decodeChars? : List UInt8 → Option (List Char)
  | [] => some []
  | a :: rest =>
    if a < 0x80 then (decodeChars? rest).map (Char.ofNat a.toNat :: ·)
    else if a < 0xC0 then none
    else if a < 0xE0 then
      match rest with
      | b :: rest => do
        let c ← charAbove? 0x80 ((a.toNat - 0xC0) * 64 + (← continuation? b))
        return c :: (← decodeChars? rest)
      | _ => none
    else if a < 0xF0 then
      match rest with
      | b :: c :: rest => do
        let c ← charAbove? 0x800
          (((a.toNat - 0xE0) * 64 + (← continuation? b)) * 64 + (← continuation? c))
        return c :: (← decodeChars? rest)
      | _ => none
    else
      match rest with
      | b :: c :: d :: rest => do
        let c ← charAbove? 0x10000
          ((((a.toNat - 0xF0) * 64 + (← continuation? b)) * 64 + (← continuation? c)) * 64 +
            (← continuation? d))
        return c :: (← decodeChars? rest)
      | _ => none

def decodeUtf8? (bytes : List UInt8) : Option String := (decodeChars? bytes).map String.ofList

private def unifyChars : List Char → List Char
  | [] => []
  | '\r' :: '\n' :: cs => '\n' :: unifyChars cs
  | c :: cs => (if c == '\r' then '\n' else c) :: unifyChars cs

/-- The text with every carriage return, alone or with a line feed, as one line feed. -/
def unifyNewlines (s : String) : String := String.ofList (unifyChars s.toList)

end Styling.Text
