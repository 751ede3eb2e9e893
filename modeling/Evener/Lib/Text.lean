/-
  Texts as the `strings` package sees them.
-/
import Mathlib.Data.List.Infix
import Mathlib.Algebra.GroupWithZero.Nat

namespace Evener.Lib

/-- `unicode.IsSpace`. -/
def isWhite (c : Char) : Bool :=
  (9 ≤ c.toNat && c.toNat ≤ 13) || c.toNat = 32 || c.toNat = 0x85 || c.toNat = 0xA0 ||
    c.toNat = 0x1680 || (0x2000 ≤ c.toNat && c.toNat ≤ 0x200A) || c.toNat = 0x2028 ||
    c.toNat = 0x2029 || c.toNat = 0x202F || c.toNat = 0x205F || c.toNat = 0x3000

def trimWhite (l : List Char) : List Char := ((l.dropWhile isWhite).reverse.dropWhile isWhite).reverse

/-- `strings.TrimSpace`. -/
def trimSpace (s : String) : String := String.ofList (trimWhite s.toList)

/-- `strings.HasPrefix`. -/
def startsWith (s start : String) : Bool := start.toList.isPrefixOf s.toList

/-- `strings.TrimPrefix`. -/
def trimStart (s start : String) : String :=
  if startsWith s start then String.ofList (s.toList.drop start.toList.length) else s

theorem startsWith_append (start s : String) : startsWith (start ++ s) start = true := by
  unfold startsWith
  rw [String.toList_append]
  simp

theorem trimStart_append (start s : String) : trimStart (start ++ s) start = s := by
  unfold trimStart
  rw [if_pos (startsWith_append start s), String.toList_append, List.drop_left, String.ofList_toList]

/-- Text that starts with no white space keeps its first character. -/
theorem head_trimWhite {c : Char} {l : List Char} (h : isWhite c = false) :
    ∃ l', trimWhite (c :: l) = c :: l' := by
  unfold trimWhite
  rw [List.dropWhile_cons_of_neg (by simp [h]), List.reverse_cons, List.dropWhile_append]
  split
  · exact ⟨[], by rw [List.dropWhile_cons_of_neg (by simp [h])]; rfl⟩
  · exact ⟨(l.reverse.dropWhile isWhite).reverse, by rw [List.reverse_append]; rfl⟩

/-! ## Packing texts into one -/

/-- Every character behind a `+`, every end of a text as `;`. -/
def pack (texts : List (List Char)) : List Char :=
  texts.flatMap fun text => text.flatMap (fun c => ['+', c]) ++ [';']

def unpack : List Char → List (List Char)
  | '+' :: c :: rest =>
    match unpack rest with
    | [] => []
    | text :: texts => (c :: text) :: texts
  | ';' :: rest => [] :: unpack rest
  | _ => []

end Evener.Lib
