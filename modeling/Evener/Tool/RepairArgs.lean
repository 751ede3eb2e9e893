/-
  Repair of the arguments of a tool call: aliased names, mistyped scalars, empty optionals and
  unknown names, each in a pass of its own over the argument object.

  `Visits` says in which order each of the loops meets the entries of a Go map; it is any order.
-/
import Evener.Lib.MapRange

namespace Evener.Tool.Repair
open Evener.Lib (lookup put erase Edit applyEdits)

/-! ## Values -/

/-- An argument or a part of a schema. A number is a `float64` by its bits; `strs` is the
    `[]string` of a schema that is built by hand. -/
inductive Value where
  | null
  | bool (b : Bool)
  | num (bits : UInt64)
  | str (s : String)
  | strs (ss : List String)
  | arr (vs : List Value)
  | obj (entries : List (String × Value))

abbrev Object := List (String × Value)

def Object.get (m : Object) (key : String) : Option Value := (lookup Prod.fst key m).map Prod.snd

/-- The keys of every object are distinct. -/
inductive Value.Keyed : Value → Prop where
  | null : Keyed .null
  | bool (b : Bool) : Keyed (.bool b)
  | num (bits : UInt64) : Keyed (.num bits)
  | str (s : String) : Keyed (.str s)
  | strs (ss : List String) : Keyed (.strs ss)
  | arr {vs : List Value} (h : ∀ v ∈ vs, Keyed v) : Keyed (.arr vs)
  | obj {entries : Object} (hkeys : Lib.KeysNodup Prod.fst entries)
      (h : ∀ e ∈ entries, Keyed e.2) : Keyed (.obj entries)

/-- The arguments of a call. -/
structure Args where
  entries : Object
  keyed : (Value.obj entries).Keyed

/-- What the standard library does with a text; `parseFloat` is the finite number it spells. -/
structure Runtime where
  toLower : String → String
  trimSpace : String → String
  parseFloat : String → Option UInt64

/-! ## Changes -/

inductive ChangeKind where
  | changeAlias | changeCoerceType | changeDropUnknown | changeNormalizeDefault
  deriving DecidableEq

structure Change where
  kind : ChangeKind
  field : String
  detail : String
  deriving DecidableEq

structure PathStep where
  name : String
  index : Bool

def aliasTable : List (String × String) :=
  [("old_str", "old_string"), ("new_str", "new_string"), ("path", "file_path"),
    ("filepath", "file_path"), ("filename", "file_path"), ("contents", "content"),
    ("cmd", "command")]

/-! ## The order of the visits -/

/-- A loop over the argument object, or over an object in it. -/
inductive Pass where
  | coercions | empties | unknown

structure Visits where
  aliases : List (String × String)
  aliases_perm : aliases.Perm aliasTable
  entries : Pass → List PathStep → Object → Object
  entries_perm : ∀ pass path m, (entries pass path m).Perm m

/-! ## Schemas -/

def schemaProps (params : Object) : Option Object :=
  match params.get "properties" with
  | some (.obj props) => some props
  | _ => none

def propOf (params : Object) (key : String) : Option Value :=
  (schemaProps params).bind (·.get key)

def isPropDeclared (params : Object) (key : String) : Bool := (propOf params key).isSome

def additionalPropsFalse (params : Object) : Bool :=
  match params.get "additionalProperties" with
  | some (.bool ap) => !ap
  | _ => false

def asStringSlice : Option Value → List String
  | some (.strs ss) => ss
  | some (.arr vs) => vs.filterMap fun v => match v with | .str s => some s | _ => none
  | _ => []

def hasListEntries : Option Value → Bool
  | some (.strs ss) => !ss.isEmpty
  | some (.arr vs) => !vs.isEmpty
  | _ => false

def nullableUnionNonNullType (v : Option Value) : String :=
  let members : Option (String × String) := match v with
    | some (.arr [.str first, .str second]) => some (first, second)
    | some (.strs [first, second]) => some (first, second)
    | _ => none
  match members with
  | none => ""
  | some (first, second) =>
    if first = "null" ∧ second ≠ "null" then second
    else if second = "null" ∧ first ≠ "null" then first
    else ""

def coercibleScalarType (v : Option Value) : String :=
  match v with
  | some (.str typ) => typ
  | _ =>
    let typ := nullableUnionNonNullType v
    if typ = "boolean" ∨ typ = "integer" ∨ typ = "number" then typ else ""

/-! ## Empty values -/

/-- The two values that can mean an argument is left out. -/
inductive EmptyValue where
  | null | blank

def EmptyValue.of : Value → Option EmptyValue
  | .null => some .null
  | .str s => if s = "" then some .blank else none
  | _ => none

/-- `jsonEqual` where one side is an empty value. -/
def jsonEqual (candidate : EmptyValue) : Value → Bool
  | .null => match candidate with | .null => true | .blank => false
  | .str s => match candidate with | .null => false | .blank => s = ""
  | _ => false

def listHasValue (enum : Option Value) (candidate : EmptyValue) : Bool :=
  match enum with
  | some (.arr members) => members.any (jsonEqual candidate)
  | some (.strs members) => members.any fun s => jsonEqual candidate (.str s)
  | _ => false

/-- `valueHasJSONType` of null. -/
def nullHasJSONType (name : String) : Bool :=
  name ∉ ["string", "boolean", "object", "array", "number", "integer"]

/-- `candidateMatchesType` of null. -/
def nullMatchesType : Option Value → Bool
  | some (.str name) => nullHasJSONType name
  | some (.arr names) => names.any fun e => match e with | .str name => nullHasJSONType name | _ => false
  | some (.strs names) => names.any nullHasJSONType
  | _ => true

/-- `schemaOwnKeywordsMatch` of null, which no numeric and no length bound is about. -/
def ownKeywordsMatchNull (schema : Object) : Bool :=
  (match schema.get "const" with | some declared => jsonEqual .null declared | none => true) &&
  (match schema.get "enum" with | some enum => listHasValue (some enum) .null | none => true) &&
  nullMatchesType (schema.get "type")

def isRefSegment (seg : String) : Bool := seg ∈ ["$ref", "$dynamicRef", "$recursiveRef"]

def definitelyAcceptsNull : Value → Bool
  | .bool b => b
  | .obj schema =>
    if schema.any fun e => isRefSegment e.1 || e.1 ∈ ["anyOf", "oneOf", "allOf", "not", "if"] then
      false
    else ownKeywordsMatchNull schema
  | _ => false

/-- The branches of a combinator. -/
def branchesOf (schema : Object) (keyword : String) : List Value :=
  match schema.get keyword with
  | some (.arr branches) => branches
  | _ => []

theorem sizeOf_get {m : Object} {key : String} {v : Value} (h : m.get key = some v) :
    sizeOf v < sizeOf m := by
  obtain ⟨e, he, rfl⟩ := Option.map_eq_some_iff.mp h
  have hmem := Lib.mem_of_lookup he
  have hlt := List.sizeOf_lt_of_mem hmem
  have hpair : sizeOf e = 1 + sizeOf e.1 + sizeOf e.2 := by
    cases e
    rfl
  omega

theorem sizeOf_branch {schema : Object} {keyword : String} {branch : Value}
    (h : branch ∈ branchesOf schema keyword) : sizeOf branch < sizeOf schema := by
  unfold branchesOf at h
  split at h
  · rename_i branches hget
    have hlt := List.sizeOf_lt_of_mem h
    have hwhole := sizeOf_get hget
    rw [Value.arr.sizeOf_spec] at hwhole
    omega
  · cases h

mutual

def schemaAcceptsNull (schema : Object) : Bool :=
  ownKeywordsMatchNull schema &&
  (["anyOf", "oneOf"].all fun keyword =>
    (branchesOf schema keyword).isEmpty ||
      (branchesOf schema keyword).attach.any fun branch => branchAcceptsNull branch.1) &&
  ((branchesOf schema "allOf").attach.all fun branch => branchAcceptsNull branch.1) &&
  (match schema.get "not" with | some negated => !definitelyAcceptsNull negated | none => true)
termination_by sizeOf schema
decreasing_by
  · exact sizeOf_branch branch.2
  · exact sizeOf_branch branch.2

def branchAcceptsNull (branch : Value) : Bool :=
  match branch with
  | .bool b => b
  | .obj schema => schemaAcceptsNull schema
  | _ => true
termination_by sizeOf branch

end

/-- `emptyMeansAbsent`. -/
def emptyMeansAbsent (schema : Object) : EmptyValue → Bool
  | .null => !schemaAcceptsNull schema
  | .blank => hasListEntries (schema.get "enum") && !listHasValue (schema.get "enum") .blank

/-! ## The passes -/

/-- One round of the loop over the alias table. -/
def applyAlias (params : Object) (st : Object × List Change) (entry : String × String) :
    Object × List Change :=
  let (alias', canonical) := entry
  match st.1.get alias' with
  | none => st
  | some v =>
    if isPropDeclared params alias' then st
    else if !isPropDeclared params canonical then st
    else if (st.1.get canonical).isSome then st
    else (erase Prod.fst alias' (put Prod.fst (canonical, v) st.1),
      st.2 ++ [⟨.changeAlias, canonical, alias' ++ "→" ++ canonical⟩])

def applyAliases (v : Visits) (params args : Object) : Object × List Change :=
  v.aliases.foldl (applyAlias params) (args, [])

def coercion (rt : Runtime) (params : Object) (key : String) (raw : Value) : Edit Value Change :=
  match propOf params key with
  | some (.obj p) =>
    let typ := coercibleScalarType (Object.get p "type")
    if typ = "boolean" then
      match raw with
      | .str s =>
        let spelled := rt.toLower (rt.trimSpace s)
        if spelled = "true" then
          (some (.bool true), [⟨.changeCoerceType, key, "\"" ++ s ++ "\"→true"⟩])
        else if spelled = "false" then
          (some (.bool false), [⟨.changeCoerceType, key, "\"" ++ s ++ "\"→false"⟩])
        else (some raw, [])
      | _ => (some raw, [])
    else if typ = "integer" ∨ typ = "number" then
      match raw with
      | .str s =>
        match rt.parseFloat (rt.trimSpace s) with
        | some f => (some (.num f), [⟨.changeCoerceType, key, "\"" ++ s ++ "\"→" ++ s⟩])
        | none => (some raw, [])
      | _ => (some raw, [])
    else if typ = "array" then
      match raw with
      | .arr _ | .null => (some raw, [])
      | _ => (some (.arr [raw]), [⟨.changeCoerceType, key, "scalar→[scalar]"⟩])
    else (some raw, [])
  | _ => (some raw, [])

def applyCoercions (rt : Runtime) (v : Visits) (params args : Object) : Object × List Change :=
  applyEdits ((v.entries .coercions [] args).map fun e => (e.1, coercion rt params e.1 e.2)) args

def stepPathDisplay (steps : List PathStep) : String :=
  let names := steps.zipIdx.map fun (step, i) =>
    if step.index then "[" ++ step.name ++ "]" else if i > 0 then "." ++ step.name else step.name
  String.join names

/-- What a loop over the elements of a list did: the elements after it, and the changes. -/
def collect (value : Value) (elements : List Value) (results : List (Value × List Change)) :
    Value × List Change :=
  let repaired := (elements.zip results).map fun (element, nested, c) =>
    if c.isEmpty then element else nested
  let changes := results.flatMap Prod.snd
  if changes.isEmpty then (value, []) else (.arr repaired, changes)

theorem sizeOf_entry {m : Object} {e : String × Value} (h : e ∈ m) : sizeOf e.2 < sizeOf m := by
  have hlt := List.sizeOf_lt_of_mem h
  have hpair : sizeOf e = 1 + sizeOf e.1 + sizeOf e.2 := by
    cases e
    rfl
  omega

mutual

def dropEmptyOptionals (v : Visits) (schema obj : Object) (path : List PathStep)
    (keep : List String) : Object × List Change :=
  applyEdits ((v.entries .empties path obj).attach.map fun ⟨(key, raw), hmem⟩ =>
    (key, emptyOptional v schema key raw path keep)) obj
termination_by (sizeOf obj, 0)
decreasing_by
  have hin := (v.entries_perm .empties path obj).mem_iff.mp hmem
  exact Prod.Lex.left _ _ (sizeOf_entry hin)

/-- One round of the loop over the object. -/
def emptyOptional (v : Visits) (schema : Object) (key : String) (raw : Value)
    (path : List PathStep) (keep : List String) : Edit Value Change :=
  match (schemaProps schema).bind (·.get key) with
  | some (.obj p) =>
    let at' := path ++ [⟨key, false⟩]
    match EmptyValue.of raw with
    | none =>
      let (nested, c) := dropEmptyOptionalsWithin v p raw at' keep
      if c.isEmpty then (some raw, []) else (some nested, c)
    | some empty =>
      let field := stepPathDisplay at'
      if key ∈ asStringSlice (schema.get "required") ∨ emptyMeansAbsent p empty = false ∨
          field ∈ keep then
        (some raw, [])
      else
        (none, [⟨.changeNormalizeDefault, field, "dropped empty optional " ++ field⟩])
  | _ => (some raw, [])
termination_by (sizeOf raw, 2)

def dropEmptyOptionalsWithin (v : Visits) (schema : Object) (value : Value) (path : List PathStep)
    (keep : List String) : Value × List Change :=
  match value with
  | .obj m =>
    if (schemaProps schema).isNone then (.obj m, [])
    else
      let (repaired, changes) := dropEmptyOptionals v schema m path keep
      if changes.isEmpty then (.obj m, []) else (.obj repaired, changes)
  | .arr elements =>
    match schema.get "items" with
    | some (.obj items) =>
      collect (.arr elements) elements (elements.attach.zipIdx.map fun (⟨element, _⟩, i) =>
        dropEmptyOptionalsWithin v items element (path ++ [⟨toString i, true⟩]) keep)
    | _ => (.arr elements, [])
  | value => (value, [])
termination_by (sizeOf value, 1)

end

def dropUnknown (v : Visits) (params args : Object) : Object × List Change :=
  if additionalPropsFalse params then
    applyEdits ((v.entries .unknown [] args).map fun e =>
      (e.1, if isPropDeclared params e.1 then (some e.2, [])
        else (none, [⟨.changeDropUnknown, e.1, "dropped " ++ e.1⟩]))) args
  else (args, [])

def repairArgs (rt : Runtime) (v : Visits) (params : Object) (args : Args) (keep : List String) :
    Object × List Change :=
  let aliased := applyAliases v params args.entries
  let coerced := applyCoercions rt v params aliased.1
  let dropped := dropEmptyOptionals v params coerced.1 [] keep
  let known := dropUnknown v params dropped.1
  (known.1, aliased.2 ++ coerced.2 ++ dropped.2 ++ known.2)

end Evener.Tool.Repair
