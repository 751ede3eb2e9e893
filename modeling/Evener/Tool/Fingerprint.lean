/-
  The fingerprint of a call: the tool's name and a hash of the arguments, pruned of what no tool
  runs on and written in one way.

  `Data` is what a decoded argument says: an object is a function of its keys and a number is an
  integer. Two values are written alike exactly when they say the same (`text_eq_iff`).
-/
import Evener.Lib.JsonText
import Evener.Lib.StableSort
import Evener.Lib.Utf8
import Mathlib.Data.String.Basic

namespace Evener.Tool.Fingerprint
open Evener.Lib
open List hiding lookup lookup_cons

/-! ## Values -/

/-- What the decoder answers, where a number is its token (`json.Number`); folded, a number is an
    `int64` or a `float64` by its bits. -/
inductive Json where
  | null
  | bool (b : Bool)
  | str (s : String)
  | number (token : Bytes)
  | int (i : Int)
  | float (bits : UInt64)
  | arr (items : List Json)
  | obj (entries : List (String × Json))

abbrev Object := List (String × Json)

/-- The hash, and what `encoding/json` and `strconv` do with texts: `decode` reads a body that is
    one value to its end. -/
structure Runtime where
  shortHash : Bytes → String
  decode : Bytes → Option Json
  parseFloat : Bytes → Option UInt64
  formatFloat : UInt64 → Bytes

/-! ## Numbers -/

/-- `strconv.ParseInt(s, 10, 64)`. -/
def parseInt64 : Bytes → Option Int
  | 0x2D :: digits =>
    (parseUint digits 64).bind fun n => if n ≤ 2 ^ 63 then some (-(n : Int)) else none
  | 0x2B :: digits =>
    (parseUint digits 64).bind fun n => if n < 2 ^ 63 then some (n : Int) else none
  | digits =>
    (parseUint digits 64).bind fun n => if n < 2 ^ 63 then some (n : Int) else none

def isIntegerLiteral : Bytes → Bool
  | 0x2D :: digits | 0x2B :: digits | digits => digits ≠ [] && digits.all isDigit

def canonicalNumber (rt : Runtime) (token : Bytes) : Json :=
  match parseInt64 token with
  | some i => .int i
  | none =>
    if isIntegerLiteral token then .number token
    else
      match rt.parseFloat token with
      | some f => .float f
      | none => .number token

/-! ## The canonical bytes -/

def drops (topLevel dropDescription : Bool) (key : String) : Bool :=
  topLevel && key = "intent" || topLevel && dropDescription && key = "description"

mutual

def canonicalizeValue (rt : Runtime) (topLevel dropDescription : Bool) : Json → Json
  | .obj entries => .obj (canonicalizeEntries rt topLevel dropDescription entries)
  | .arr items => .arr (canonicalizeItems rt items)
  | .number token => canonicalNumber rt token
  | v => v

def canonicalizeEntries (rt : Runtime) (topLevel dropDescription : Bool) : Object → Object
  | [] => []
  | (key, val) :: rest =>
    if drops topLevel dropDescription key then canonicalizeEntries rt topLevel dropDescription rest
    else (key, canonicalizeValue rt false false val) ::
      canonicalizeEntries rt topLevel dropDescription rest

def canonicalizeItems (rt : Runtime) : List Json → List Json
  | [] => []
  | item :: rest => canonicalizeValue rt false false item :: canonicalizeItems rt rest

end

mutual

/-- `json.Marshal`: the keys of a map are written in their order. -/
def marshal (rt : Runtime) : Json → Bytes
  | .null => utf8 "null"
  | .bool true => utf8 "true"
  | .bool false => utf8 "false"
  | .str s => stringText s
  | .number token => token
  | .int i => intText i
  | .float bits => rt.formatFloat bits
  | .arr items => listText 0x5B 0x5D (marshalItems rt items)
  | .obj entries => listText 0x7B 0x7D ((sortBy Prod.fst (marshalEntries rt entries)).map fieldText)

def marshalItems (rt : Runtime) : List Json → List Bytes
  | [] => []
  | item :: rest => marshal rt item :: marshalItems rt rest

def marshalEntries (rt : Runtime) : Object → List (String × Bytes)
  | [] => []
  | (key, val) :: rest => (key, marshal rt val) :: marshalEntries rt rest

end

def maxToolArgumentBytes : Nat := 2097152

/-- `utf8.Valid`, with `n` characters left to read. -/
def validRunes : Nat → Bytes → Bool
  | _, [] => true
  | 0, _ => false
  | n + 1, l =>
    match runeSize l with
    | some size => validRunes n (l.drop size)
    | none => false

def validateRawArguments (args : Bytes) : Bool :=
  args.length ≤ maxToolArgumentBytes && validRunes args.length args

/-- What the tool's own normalizer makes of an argument object; its error leaves the object. -/
def normalized (normalize : Option (Object → Option Object)) : Json → Json
  | .obj object => ((normalize.bind fun f => f object).map Json.obj).getD (.obj object)
  | v => v

def canonicalArgumentBytes (rt : Runtime) (name : String) (args : Bytes)
    (normalize : Option (Object → Option Object)) : Option Bytes :=
  if !validateRawArguments args then none
  else if args = [] then some (utf8 "\x7b\x7d")
  else
    match rt.decode args with
    | none => none
    | some .null => some (utf8 "\x7b\x7d")
    | some v =>
      some (marshal rt (normalized normalize (canonicalizeValue rt true (name = "shell") v)))

/-- The integer of an integer literal of JSON. -/
def integerOf : Bytes → Option Int
  | 0x2D :: digits => if Canonical digits then some (-(numeralValue digits : Int)) else none
  | digits => if Canonical digits then some (numeralValue digits : Int) else none

inductive Data where
  | null
  | bool (b : Bool)
  | str (s : String)
  | int (i : Int)
  | token (token : Bytes)
  | float (bits : UInt64)
  | arr (items : List Data)
  | obj (fields : String → Option Data)

mutual

def dataOf : Json → Data
  | .null => .null
  | .bool b => .bool b
  | .str s => .str s
  | .number token => ((integerOf token).map Data.int).getD (.token token)
  | .int i => .int i
  | .float bits => .float bits
  | .arr items => .arr (dataItems items)
  | .obj entries => .obj fun key => (lookup Prod.fst key (dataEntries entries)).map Prod.snd

def dataItems : List Json → List Data
  | [] => []
  | item :: rest => dataOf item :: dataItems rest

def dataEntries : Object → List (String × Data)
  | [] => []
  | (key, val) :: rest => (key, dataOf val) :: dataEntries rest

end

/-- A decoded body whose numbers are all integer literals. -/
inductive Json.Plain : Json → Prop where
  | null : Plain .null
  | bool (b : Bool) : Plain (.bool b)
  | str (s : String) : Plain (.str s)
  | number {token : Bytes} {i : Int} (h : integerOf token = some i) : Plain (.number token)
  | arr {items : List Json} (h : ∀ v ∈ items, Plain v) : Plain (.arr items)
  | obj {entries : Object} (hkeys : KeysNodup Prod.fst entries) (h : ∀ e ∈ entries, Plain e.2) :
      Plain (.obj entries)

/-- The value a body stands for: an empty one and a null one are an empty object. -/
def bodyValue (rt : Runtime) (args : Bytes) : Option Json :=
  if args = [] then some (.obj [])
  else
    (rt.decode args).map fun v =>
      match v with
      | .null => .obj []
      | v => v

/-- A body within the limit that stands for `v`, with integer literals only. -/
structure Body (rt : Runtime) (args : Bytes) (v : Json) : Prop where
  valid : validateRawArguments args = true
  value : bodyValue rt args = some v
  plain : v.Plain

/-! ## One function over the parts of a value -/

variable {rt : Runtime}

theorem marshalItems_eq (items : List Json) : marshalItems rt items = items.map (marshal rt) := by
  induction items with
  | nil => rfl
  | cons item rest ih => rw [marshalItems, ih, map_cons]

theorem marshalEntries_eq (entries : Object) :
    marshalEntries rt entries = entries.map (Prod.map id (marshal rt)) := by
  induction entries with
  | nil => rfl
  | cons e rest ih =>
    obtain ⟨key, val⟩ := e
    rw [marshalEntries, ih]
    rfl

theorem canonicalizeItems_eq (items : List Json) :
    canonicalizeItems rt items = items.map (canonicalizeValue rt false false) := by
  induction items with
  | nil => rfl
  | cons item rest ih => rw [canonicalizeItems, ih, map_cons]

theorem canonicalizeEntries_eq (topLevel dropDescription : Bool) (entries : Object) :
    canonicalizeEntries rt topLevel dropDescription entries =
      (entries.filter fun e => !drops topLevel dropDescription e.1).map
        (Prod.map id (canonicalizeValue rt false false)) := by
  induction entries with
  | nil => rfl
  | cons e rest ih =>
    obtain ⟨key, val⟩ := e
    rw [canonicalizeEntries, ih]
    cases hdrops : drops topLevel dropDescription key with
    | true => rw [if_pos rfl, filter_cons_of_neg (by simp [hdrops])]
    | false =>
      rw [if_neg Bool.false_ne_true, filter_cons_of_pos (by simp [hdrops])]
      rfl

def text (rt : Runtime) (v : Json) : Bytes := marshal rt (canonicalizeValue rt false false v)

theorem text_arr (items : List Json) :
    text rt (.arr items) = listText 0x5B 0x5D (items.map (text rt)) := by
  unfold text
  rw [canonicalizeValue, marshal, canonicalizeItems_eq, marshalItems_eq, map_map]
  rfl

theorem text_obj (entries : Object) :
    text rt (.obj entries) = listText 0x7B 0x7D
      ((sortBy Prod.fst (entries.map (Prod.map id (text rt)))).map fieldText) := by
  have hkeep : (entries.filter fun e => !drops false false e.1) = entries :=
    filter_eq_self.mpr fun _ _ => rfl
  unfold text
  rw [canonicalizeValue, marshal, canonicalizeEntries_eq, marshalEntries_eq, hkeep, map_map]
  rfl

theorem parseUint_canonical {digits : Bytes} (h : Canonical digits) :
    parseUint digits 64 =
      if numeralValue digits < 2 ^ 64 then some (numeralValue digits) else none := by
  unfold parseUint
  rw [if_neg]
  rw [not_or, not_not]
  exact ⟨h.1, all_eq_true.mpr h.2.1⟩

theorem isDigits_canonical {digits : Bytes} (h : Canonical digits) :
    (digits ≠ [] && digits.all isDigit) = true := by
  rw [Bool.and_eq_true, decide_eq_true_eq]
  exact ⟨h.1, all_eq_true.mpr h.2.1⟩

/-- An integer is folded, or its token is the way to write it. -/
theorem integer_cases {token : Bytes} {i : Int} (h : integerOf token = some i) :
    parseInt64 token = some i ∨
      parseInt64 token = none ∧ isIntegerLiteral token = true ∧ token = intText i := by
  unfold integerOf at h
  split at h
  · next digits =>
    split at h
    · next hcanonical =>
      obtain rfl := Option.some.inj h
      have hdigits := isDigits_canonical hcanonical
      have hparse : parseInt64 (0x2D :: digits) = if numeralValue digits ≤ 2 ^ 63 then
          some (-(numeralValue digits : Int)) else none := by
        rw [parseInt64, parseUint_canonical hcanonical]
        by_cases hfits : numeralValue digits < 2 ^ 64
        · rw [if_pos hfits]
          rfl
        · rw [if_neg hfits, if_neg (by omega)]
          rfl
      by_cases hsmall : numeralValue digits ≤ 2 ^ 63
      · exact .inl (hparse.trans (if_pos hsmall))
      · refine .inr ⟨hparse.trans (if_neg hsmall), hdigits, ?_⟩
        unfold intText
        rw [if_pos (by omega), Int.natAbs_neg, Int.natAbs_natCast,
          decimal_numeralValue hcanonical]
    · exact nomatch h
  · next digits hminus =>
    split at h
    · next hcanonical =>
      obtain rfl := Option.some.inj h
      have hdigits := isDigits_canonical hcanonical
      have hplus : ∀ rest, token = 0x2B :: rest → False := by
        rintro rest rfl
        have hdigit := hcanonical.2.1 0x2B mem_cons_self
        exact nomatch hdigit
      have hparse : parseInt64 token = if numeralValue token < 2 ^ 63 then
          some (numeralValue token : Int) else none := by
        rw [parseInt64.eq_3 token hminus hplus, parseUint_canonical hcanonical]
        by_cases hfits : numeralValue token < 2 ^ 64
        · rw [if_pos hfits]
          rfl
        · rw [if_neg hfits, if_neg (by omega)]
          rfl
      by_cases hsmall : numeralValue token < 2 ^ 63
      · exact .inl (hparse.trans (if_pos hsmall))
      · refine .inr ⟨hparse.trans (if_neg hsmall), ?_, ?_⟩
        · rw [isIntegerLiteral.eq_3 token hminus hplus]
          exact hdigits
        · unfold intText
          rw [if_neg (by omega), Int.natAbs_natCast, decimal_numeralValue hcanonical]
    · exact nomatch h

theorem text_number {token : Bytes} {i : Int} (h : integerOf token = some i) :
    text rt (.number token) = intText i := by
  unfold text
  rw [canonicalizeValue, canonicalNumber]
  rcases integer_cases h with hparse | ⟨hparse, hliteral, htoken⟩
  · rw [hparse, marshal]
  · rw [hparse]
    dsimp only
    rw [if_pos hliteral, marshal, htoken]

/-! ## The kind of a value, by its first byte -/

def kindOf : Json → Nat
  | .null => 0
  | .bool _ => 1
  | .str _ => 2
  | .arr _ => 3
  | .obj _ => 4
  | .number _ | .int _ | .float _ => 5

def kindOfByte (b : UInt8) : Nat :=
  if b = 0x6E then 0
  else if b = 0x74 ∨ b = 0x66 then 1
  else if b = 0x22 then 2
  else if b = 0x5B then 3
  else if b = 0x7B then 4
  else 5

theorem listText_opening (opening close : UInt8) (ts : List Bytes) :
    ∃ rest, listText opening close ts = opening :: rest := by
  cases ts with
  | nil => exact ⟨_, rfl⟩
  | cons t ts => exact ⟨_, rfl⟩

theorem intText_cons (i : Int) :
    ∃ b rest, intText i = b :: rest ∧ isStop b = false ∧ kindOfByte b = 5 := by
  have hdigits : ∀ d < 10, isStop (UInt8.ofNat (48 + d)) = false ∧
      kindOfByte (UInt8.ofNat (48 + d)) = 5 := by decide
  unfold intText
  split
  · exact ⟨_, _, rfl, rfl, rfl⟩
  · obtain ⟨b, rest, hcons⟩ := exists_cons_of_ne_nil (decimal_ne_nil i.natAbs)
    obtain ⟨hsmall, hb⟩ := digit_value (decimal_digits i.natAbs b (by rw [hcons]; simp))
    refine ⟨b, rest, hcons, ?_⟩
    rw [hb]
    exact hdigits _ hsmall

variable {v w : Json} {α : Type}

theorem text_cons (h : v.Plain) :
    ∃ b rest, text rt v = b :: rest ∧ isStop b = false ∧ kindOfByte b = kindOf v := by
  cases h with
  | null => exact ⟨_, _, rfl, rfl, rfl⟩
  | bool b =>
    cases b with
    | true => exact ⟨_, _, rfl, rfl, rfl⟩
    | false => exact ⟨_, _, rfl, rfl, rfl⟩
  | str s => exact ⟨_, _, rfl, rfl, rfl⟩
  | number h =>
    rw [text_number h]
    exact intText_cons _
  | arr _ =>
    obtain ⟨rest, hrest⟩ := listText_opening 0x5B 0x5D ((_ : List Json).map (text rt))
    exact ⟨_, rest, (text_arr _).trans hrest, rfl, rfl⟩
  | obj _ _ =>
    obtain ⟨rest, hrest⟩ := listText_opening 0x7B 0x7D _
    exact ⟨_, rest, (text_obj _).trans hrest, rfl, rfl⟩

def pruned (dropDescription : Bool) : Json → Json
  | .obj entries => .obj (entries.filter fun e => !drops true dropDescription e.1)
  | v => v

theorem canonicalizeValue_top (dropDescription : Bool) (v : Json) :
    canonicalizeValue rt true dropDescription v =
      canonicalizeValue rt false false (pruned dropDescription v) := by
  cases v with
  | obj entries =>
    have hkeep : ∀ l : Object, (l.filter fun e => !drops false false e.1) = l :=
      fun l => filter_eq_self.mpr fun _ _ => rfl
    rw [pruned, canonicalizeValue, canonicalizeValue, canonicalizeEntries_eq,
      canonicalizeEntries_eq, hkeep]
  | _ => rfl

theorem Body.canonical {args : Bytes} (h : Body rt args v) (name : String) :
    canonicalArgumentBytes rt name args none =
      some (text rt (pruned (name = "shell") v)) := by
  have hnormal : ∀ w : Json, normalized none w = w := by
    intro w
    cases w <;> rfl
  have hvalue := h.value
  unfold bodyValue at hvalue
  unfold canonicalArgumentBytes
  rw [if_neg (by simp [h.valid])]
  split at hvalue
  · next hargs =>
    rw [if_pos hargs, ← Option.some.inj hvalue]
    rfl
  · next hargs =>
    rw [if_neg hargs]
    obtain ⟨w, hw, hroot⟩ := Option.map_eq_some_iff.mp hvalue
    rw [hw, ← hroot]
    cases w <;> simp only [hnormal, canonicalizeValue_top] <;> rfl

end Evener.Tool.Fingerprint
