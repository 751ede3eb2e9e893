/-
  The string operations of JavaScript the sources use and Lean's library spells differently:
  `trim` (WhiteSpace and LineTerminator code points) and `encodeURIComponent`.
-/
import Mathlib.Data.List.Basic

namespace Evener.Lib

/-- The code points `String.prototype.trim` removes. -/
def isJsSpace (c : Char) : Bool :=
  (9 ≤ c.toNat && c.toNat ≤ 13) || c.toNat == 0x20 || c.toNat == 0xA0 || c.toNat == 0x1680 ||
    (0x2000 ≤ c.toNat && c.toNat ≤ 0x200A) || c.toNat == 0x2028 || c.toNat == 0x2029 ||
    c.toNat == 0x202F || c.toNat == 0x205F || c.toNat == 0x3000 || c.toNat == 0xFEFF

/-- `s.trim()`. -/
def jsTrim (s : String) : String :=
  String.ofList (((s.toList.dropWhile isJsSpace).reverse.dropWhile isJsSpace).reverse)

/-- The characters `encodeURIComponent` leaves alone. -/
def isUriUnreserved (c : Char) : Bool :=
  c.isAlphanum || c ∈ ['-', '_', '.', '!', '~', '*', '(', ')'] || c.toNat == 39

/-- One upper-case hexadecimal digit. -/
def hexDigit (n : Nat) : Char :=
  if n < 10 then Char.ofNat (n + 48) else Char.ofNat (n + 55)

/-- `encodeURIComponent(s)`: every other character becomes its percent-encoded UTF-8 bytes. -/
def encodeURIComponent (s : String) : String :=
  String.ofList (s.toList.flatMap fun c =>
    if isUriUnreserved c then [c]
    else (String.utf8EncodeChar c).flatMap fun b =>
      ['%', hexDigit (b.toNat / 16), hexDigit (b.toNat % 16)])

end Evener.Lib
