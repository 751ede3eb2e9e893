/-
  JavaScript values as they are stored in a database record or sent as JSON. An object is the list
  of its own properties in insertion order; numbers are integers.
-/
import Evener.Lib.KeyedList

namespace Evener.Lib

inductive JsValue where
  | undefined
  | null
  | bool (b : Bool)
  | num (n : Int)
  | str (s : String)
  | arr (items : List JsValue)
  | obj (fields : List (String × JsValue))

namespace JsValue

/-- `obj[key]` on an object's properties: `undefined` when the property is missing. -/
def property (fields : List (String × JsValue)) (name : String) : JsValue :=
  ((lookup Prod.fst name fields).map Prod.snd).getD undefined

/-- `{ ...obj, [key]: value }`. -/
def withProperty (fields : List (String × JsValue)) (name : String) (value : JsValue) :
    List (String × JsValue) :=
  put Prod.fst (name, value) fields

/-- `const { [key]: _, ...rest } = obj`. -/
def withoutProperty (fields : List (String × JsValue)) (name : String) : List (String × JsValue) :=
  erase Prod.fst name fields

/-- `key in obj`. -/
def hasProperty (fields : List (String × JsValue)) (name : String) : Bool :=
  (lookup Prod.fst name fields).isSome

theorem property_withProperty_self (fields : List (String × JsValue)) (name : String)
    (value : JsValue) : property (withProperty fields name value) name = value := by
  simp [property, withProperty, lookup_put]

theorem property_withProperty_of_ne (fields : List (String × JsValue)) {name other : String}
    (value : JsValue) (h : name ≠ other) :
    property (withProperty fields name value) other = property fields other := by
  simp [property, withProperty, lookup_put, h]

/-! ## JSON text -/

/-- One character inside a JSON string. -/
def quoteChar (c : Char) : String :=
  if c = Char.ofNat 34 then "\\\""
  else if c = Char.ofNat 92 then "\\\\"
  else if c = Char.ofNat 8 then "\\b"
  else if c = Char.ofNat 12 then "\\f"
  else if c = Char.ofNat 10 then "\\n"
  else if c = Char.ofNat 13 then "\\r"
  else if c = Char.ofNat 9 then "\\t"
  else if c.toNat < 32 then
    "\\u00" ++ (if c.toNat < 16 then "0" else "1") ++
      String.singleton (Nat.digitChar (c.toNat % 16))
  else String.singleton c

def quote (s : String) : String := "\"" ++ String.join (s.toList.map quoteChar) ++ "\""

mutual

/-- `JSON.stringify(value)`; `none` is the `undefined` it returns for `undefined`. -/
def stringify : JsValue → Option String
  | undefined => none
  | null => some "null"
  | bool b => some (if b then "true" else "false")
  | num n => some (toString n)
  | str s => some (quote s)
  | arr items => some ("[" ++ ",".intercalate (stringifyItems items) ++ "]")
  | obj fields => some ("\x7b" ++ ",".intercalate (stringifyFields fields) ++ "\x7d")

def stringifyItems : List JsValue → List String
  | [] => []
  | item :: items => (stringify item).getD "null" :: stringifyItems items

def stringifyFields : List (String × JsValue) → List String
  | [] => []
  | (name, value) :: fields =>
    match stringify value with
    | none => stringifyFields fields
    | some text => (quote name ++ ":" ++ text) :: stringifyFields fields

end

/-- JavaScript's truthiness. -/
def truthy : JsValue → Bool
  | undefined | null => false
  | bool b => b
  | num n => n ≠ 0
  | str s => s ≠ ""
  | arr _ | obj _ => true

/-- `a ?? b`. -/
def nullish : JsValue → JsValue → JsValue
  | undefined, b | null, b => b
  | a, _ => a

/-! ## Equality -/

mutual

/-- Equality by value. -/
def beq : JsValue → JsValue → Bool
  | undefined, undefined => true
  | null, null => true
  | bool b, bool b' => b == b'
  | num n, num n' => n == n'
  | str s, str s' => s == s'
  | arr items, arr items' => beqItems items items'
  | obj fields, obj fields' => beqFields fields fields'
  | _, _ => false

def beqItems : List JsValue → List JsValue → Bool
  | [], [] => true
  | item :: items, item' :: items' => beq item item' && beqItems items items'
  | _, _ => false

def beqFields : List (String × JsValue) → List (String × JsValue) → Bool
  | [], [] => true
  | (name, value) :: fields, (name', value') :: fields' =>
    name == name' && beq value value' && beqFields fields fields'
  | _, _ => false

end

mutual

theorem eq_of_beq (a b : JsValue) (h : beq a b = true) : a = b := by
  cases a with
  | undefined => cases b <;> simp [beq] at h ⊢
  | null => cases b <;> simp [beq] at h ⊢
  | bool b' => cases b <;> simp_all [beq]
  | num n => cases b <;> simp_all [beq]
  | str s => cases b <;> simp_all [beq]
  | arr items =>
    cases b <;> simp [beq] at h ⊢
    exact eq_of_beqItems items _ h
  | obj fields =>
    cases b <;> simp [beq] at h ⊢
    exact eq_of_beqFields fields _ h

theorem eq_of_beqItems (l l' : List JsValue) (h : beqItems l l' = true) : l = l' := by
  cases l with
  | nil => cases l' <;> simp [beqItems] at h ⊢
  | cons item items =>
    cases l' <;> simp [beqItems] at h ⊢
    exact ⟨eq_of_beq item _ h.1, eq_of_beqItems items _ h.2⟩

theorem eq_of_beqFields (l l' : List (String × JsValue)) (h : beqFields l l' = true) : l = l' := by
  cases l with
  | nil => cases l' <;> simp [beqFields] at h ⊢
  | cons field fields =>
    obtain ⟨name, value⟩ := field
    cases l' with
    | nil => simp [beqFields] at h
    | cons field' fields' =>
      obtain ⟨name', value'⟩ := field'
      simp [beqFields] at h
      obtain ⟨⟨rfl, hvalue⟩, hfields⟩ := h
      rw [eq_of_beq value value' hvalue, eq_of_beqFields fields fields' hfields]

end

mutual

theorem beq_self (a : JsValue) : beq a a = true := by
  cases a with
  | arr items => simp [beq, beqItems_self items]
  | obj fields => simp [beq, beqFields_self fields]
  | _ => simp [beq]

theorem beqItems_self (l : List JsValue) : beqItems l l = true := by
  cases l with
  | nil => rfl
  | cons item items => simp [beqItems, beq_self item, beqItems_self items]

theorem beqFields_self (l : List (String × JsValue)) : beqFields l l = true := by
  cases l with
  | nil => rfl
  | cons field fields =>
    obtain ⟨name, value⟩ := field
    simp [beqFields, beq_self value, beqFields_self fields]

end

instance : DecidableEq JsValue := fun a b =>
  decidable_of_iff (beq a b = true) ⟨eq_of_beq a b, fun h => h ▸ beq_self a⟩

end JsValue

end Evener.Lib
