import ApiSuite.Text.Printable

/-!
# Quoted text

A text shown inside a larger value is **quoted**: between single quotes, or between double
quotes when it holds a single quote and no double one. The quote, the backslash and every
character that is not printable are written as escapes, so that the result is one line of
visible characters.
-/

namespace ApiSuite.Text

/-- The lower-case hexadecimal digit of a number below sixteen. -/
def hexDigit (n : Nat) : Char :=
  if n < 10 then Char.ofNat ('0'.toNat + n) else Char.ofNat ('a'.toNat + (n - 10))

/-- The last `width` hexadecimal digits of `n`, most significant first. -/
def hexDigits : Nat → Nat → List Char
  | 0, _ => []
  | width + 1, n => hexDigits width (n / 16) ++ [hexDigit (n % 16)]

/-- The quote to put around `cs`: the double one only if that saves an escape. -/
def quoteFor (cs : List Char) : Char :=
  if cs.contains '\'' && !cs.contains '"' then '"' else '\''

/-- One character of a quoted text. -/
def quotedChar (quote c : Char) : List Char :=
  let n := c.toNat
  if c == quote || c == '\\' then ['\\', c]
  else if c == '\t' then ['\\', 't']
  else if c == '\n' then ['\\', 'n']
  else if c == '\r' then ['\\', 'r']
  else if n < 0x20 || n == 0x7f then '\\' :: 'x' :: hexDigits 2 n
  else if n < 0x7f then [c]
  else if isPrintable c then [c]
  else if n ≤ 0xff then '\\' :: 'x' :: hexDigits 2 n
  else if n ≤ 0xffff then '\\' :: 'u' :: hexDigits 4 n
  else '\\' :: 'U' :: hexDigits 8 n

/-- The quoted form of a text. -/
def quoted (s : String) : String :=
  let cs := s.toList
  let q := quoteFor cs
  String.ofList (q :: cs.flatMap (quotedChar q) ++ [q])

/-- One octet of quoted octets: the escapes of `quotedChar`, with every octet outside the
visible ASCII range in hexadecimal. -/
def quotedOctet (quote : Char) (b : UInt8) : List Char :=
  let n := b.toNat
  let c := Char.ofNat n
  if c == quote || c == '\\' then ['\\', c]
  else if c == '\t' then ['\\', 't']
  else if c == '\n' then ['\\', 'n']
  else if c == '\r' then ['\\', 'r']
  else if n < 0x20 || n ≥ 0x7f then '\\' :: 'x' :: hexDigits 2 n
  else [c]

/-- The quoted form of a sequence of octets, marked by a leading `b`. -/
def quotedOctets (bs : List UInt8) : String :=
  let q := quoteFor (bs.map fun b => Char.ofNat b.toNat)
  String.ofList ('b' :: q :: bs.flatMap (quotedOctet q) ++ [q])

end ApiSuite.Text
