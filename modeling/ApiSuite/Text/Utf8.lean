import ApiSuite.Fault

/-!
# Octets as text

Files hold octets; documents are text in UTF-8. Decoding stops at the first octets that are
no character and says which they are: an octet that begins no character, a beginning that is
not continued as it should be, or one that the end of the file cuts off. In decoded text the
three forms of a line break are all written as a line feed.
-/

namespace ApiSuite.Text

/-- Where and why octets are no text. -/
structure Undecodable where
  fault : EncodingFault
  octet : UInt8
  first : Nat
  last : Nat

/-- Whether an octet continues a character. -/
def isContinuation (b : UInt8) : Bool := 0x80 ≤ b && b ≤ 0xbf

/-- Whether the second octet of a character can follow its first. -/
def secondFits (a b : UInt8) : Bool :=
  isContinuation b &&
    (if a == 0xe0 then 0xa0 ≤ b else if a == 0xed then b < 0xa0
     else if a == 0xf0 then 0x90 ≤ b else if a == 0xf4 then b < 0x90 else true)

/-- The low six bits of an octet. -/
def low6 (b : UInt8) : Nat := b.toNat % 64

/-- The text that octets from the given offset on encode. -/
def decodeFrom (at_ : Nat) : List UInt8 → Except Undecodable (List Char)
  | [] => .ok []
  | a :: rest =>
    let bad (fault : EncodingFault) (length : Nat) : Except Undecodable (List Char) :=
      .error ⟨fault, a, at_, at_ + length⟩
    if a < 0x80 then (decodeFrom (at_ + 1) rest).map (Char.ofNat a.toNat :: ·)
    else if a < 0xc2 || 0xf4 < a then bad .start 1
    else if a < 0xe0 then
      match rest with
      | [] => bad .truncated 1
      | b :: rest =>
        if isContinuation b then
          (decodeFrom (at_ + 2) rest).map (Char.ofNat ((a.toNat % 32) * 64 + low6 b) :: ·)
        else bad .continuation 1
    else if a < 0xf0 then
      match rest with
      | [] => bad .truncated 1
      | [b] => if secondFits a b then bad .truncated 2 else bad .continuation 1
      | b :: c :: rest =>
        if !secondFits a b then bad .continuation 1
        else if !isContinuation c then bad .continuation 2
        else
          (decodeFrom (at_ + 3) rest).map
            (Char.ofNat (((a.toNat % 16) * 64 + low6 b) * 64 + low6 c) :: ·)
    else
      match rest with
      | [] => bad .truncated 1
      | [b] => if secondFits a b then bad .truncated 2 else bad .continuation 1
      | [b, c] =>
        if !secondFits a b then bad .continuation 1
        else if isContinuation c then bad .truncated 3 else bad .continuation 2
      | b :: c :: d :: rest =>
        if !secondFits a b then bad .continuation 1
        else if !isContinuation c then bad .continuation 2
        else if !isContinuation d then bad .continuation 3
        else
          (decodeFrom (at_ + 4) rest).map
            (Char.ofNat ((((a.toNat % 8) * 64 + low6 b) * 64 + low6 c) * 64 + low6 d) :: ·)

/-- The text that octets encode. -/
def decode (bs : List UInt8) : Except Undecodable (List Char) := decodeFrom 0 bs

/-- The crash that undecodable octets cause. -/
def Undecodable.crash (u : Undecodable) : Crash := .encoding u.fault u.octet u.first u.last

/-- A text with every line break written as a line feed. -/
def normalizeBreaks : List Char → List Char
  | '\r' :: '\n' :: cs => '\n' :: normalizeBreaks cs
  | '\r' :: cs => '\n' :: normalizeBreaks cs
  | c :: cs => c :: normalizeBreaks cs
  | [] => []

/-- The text of a file. -/
def ofOctets (bs : List UInt8) : Except Fault String :=
  match decode bs with
  | .ok cs => .ok (String.ofList (normalizeBreaks cs))
  | .error u => .error (.crash u.crash)

end ApiSuite.Text
