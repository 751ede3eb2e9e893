/-
  JavaScript objects: the own properties in insertion order, each name once. A property that is
  missing reads as `undefined`.
-/
import Evener.Lib.JsValue

namespace Evener.Lib

structure JsObject where
  fields : List (String × JsValue)
  nodup : KeysNodup Prod.fst fields
deriving DecidableEq

namespace JsObject

/-- `o[name]`. -/
def get (o : JsObject) (name : String) : JsValue := JsValue.property o.fields name

/-- `{ ...o, [name]: value }`. -/
def set (o : JsObject) (name : String) (value : JsValue) : JsObject where
  fields := put Prod.fst (name, value) o.fields
  nodup := keysNodup_put o.nodup _

/-- `{ ...a, ...b }`. -/
def spread (a b : JsObject) : JsObject :=
  b.fields.foldl (fun o field => o.set field.1 field.2) a

/-- The properties whose names satisfy `p`; the others are deleted. -/
def keep (p : String → Bool) (o : JsObject) : JsObject where
  fields := o.fields.filter fun field => p field.1
  nodup := o.nodup.sublist List.filter_sublist

end JsObject

end Evener.Lib
