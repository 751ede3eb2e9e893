/-
  Brace expansion of glob patterns: the first finished group with a comma is spliced out, once for
  each of its alternatives, until none is left; then groups of one alternative are unwrapped.

  `lexemes` cuts a pattern into the steps the scanners of the source take.
-/
import Evener.Lib.Lines

namespace Evener.GlobPattern
open Evener.Lib (Bytes)

def maxExpansions : Nat := 256

def backslash : UInt8 := 92

def openBracket : UInt8 := 91

def closeBracket : UInt8 := 93

def openBrace : UInt8 := 123

def closeBrace : UInt8 := 125

def comma : UInt8 := 44

/-! ## The steps of a scan -/

/-- Where a scan stands: between steps, behind a backslash, in a class, behind a backslash there. -/
inductive Mode where
  | between | escape | inClass | classEscape

/-- The steps of a scan; `step` holds the bytes of the one that is not finished. -/
def lexemesFrom : Mode → Bytes → Bytes → List Bytes
  | .between, _, [] => []
  | .escape, step, [] | .inClass, step, [] | .classEscape, step, [] => [step]
  | .between, _, b :: rest =>
    if b = backslash then lexemesFrom .escape [b] rest
    else if b = openBracket then lexemesFrom .inClass [b] rest
    else [b] :: lexemesFrom .between [] rest
  | .escape, step, b :: rest => (step ++ [b]) :: lexemesFrom .between [] rest
  | .inClass, step, b :: rest =>
    if b = backslash then lexemesFrom .classEscape (step ++ [b]) rest
    else if b = closeBracket then (step ++ [b]) :: lexemesFrom .between [] rest
    else lexemesFrom .inClass (step ++ [b]) rest
  | .classEscape, step, b :: rest => lexemesFrom .inClass (step ++ [b]) rest

def lexemes (pattern : Bytes) : List Bytes := lexemesFrom .between [] pattern

/-- `text[start:stop]`. -/
def slice (text : Bytes) (start stop : Nat) : Bytes := (text.take stop).drop start

/-! ## The scanners -/

def hasTopLevelCommaFrom : Nat → List Bytes → Bool
  | _, [] => false
  | depth, l :: rest =>
    if l = [openBrace] then hasTopLevelCommaFrom (depth + 1) rest
    else if l = [closeBrace] then hasTopLevelCommaFrom (depth - 1) rest
    else if l = [comma] ∧ depth = 0 then true
    else hasTopLevelCommaFrom depth rest

def hasTopLevelComma (content : Bytes) : Bool := hasTopLevelCommaFrom 0 (lexemes content)

/-- `part` is the text since the last comma. -/
def splitFrom : Bytes → List Bytes → List Bytes
  | part, [] => [part]
  | part, l :: rest =>
    if l = [comma] then part :: splitFrom [] rest else splitFrom (part ++ l) rest

def splitAlternatives (content : Bytes) : List Bytes := splitFrom [] (lexemes content)

inductive BraceError where
  | unmatchedClosing (i : Nat)
  | unmatchedOpening (i : Nat)
  deriving DecidableEq

/-- `stack` holds the places of the open braces, the innermost first. -/
def findGroupFrom (pattern : Bytes) :
    Nat → List Nat → List Bytes → Except BraceError (Option (Nat × Nat))
  | _, [], [] => .ok none
  | _, start :: _, [] => .error (.unmatchedOpening start)
  | i, stack, l :: rest =>
    if l = [openBrace] then findGroupFrom pattern (i + 1) (i :: stack) rest
    else if l = [closeBrace] then
      match stack with
      | [] => .error (.unmatchedClosing i)
      | start :: stack =>
        if hasTopLevelComma (slice pattern (start + 1) i) then .ok (some (start, i))
        else findGroupFrom pattern (i + 1) stack rest
    else findGroupFrom pattern (i + l.length) stack rest

def findExpandableGroup (pattern : Bytes) : Except BraceError (Option (Nat × Nat)) :=
  findGroupFrom pattern 0 [] (lexemes pattern)

def unwrapFrom (pattern : Bytes) : Nat → List Nat → List Bytes → Option Bytes
  | _, _, [] => none
  | i, stack, l :: rest =>
    if l = [openBrace] then unwrapFrom pattern (i + 1) (i :: stack) rest
    else if l = [closeBrace] then
      match stack with
      | [] => none
      | start :: stack =>
        if hasTopLevelComma (slice pattern (start + 1) i) then unwrapFrom pattern (i + 1) stack rest
        else some (pattern.take start ++ slice pattern (start + 1) i ++ pattern.drop (i + 1))
    else unwrapFrom pattern (i + l.length) stack rest

def unwrapSingleTermGroup (pattern : Bytes) : Option Bytes :=
  unwrapFrom pattern 0 [] (lexemes pattern)

/-! ## Expansion -/

inductive ExpandError where
  | limitExceeded
  | invalidBracePattern (pattern : Bytes) (cause : BraceError)
  deriving DecidableEq

/-- The loop over the parts of a group. -/
def expandEach (expandOne : Bytes → Except ExpandError (List Bytes)) :
    List Bytes → List Bytes → Except ExpandError (List Bytes)
  | [], result => .ok result
  | candidate :: candidates, result =>
    match expandOne candidate with
    | .error err => .error err
    | .ok expanded =>
      if maxExpansions < result.length + expanded.length then .error .limitExceeded
      else expandEach expandOne candidates (result ++ expanded)

/-- `expand` with the depths that are left: none is left when the depth is past the bound. -/
def expandWithin : Nat → Bytes → Except ExpandError (List Bytes)
  | 0, _ => .error .limitExceeded
  | left + 1, pattern =>
    match findExpandableGroup pattern with
    | .error cause => .error (.invalidBracePattern pattern cause)
    | .ok none =>
      match unwrapSingleTermGroup pattern with
      | some unwrapped => expandWithin left unwrapped
      | none => .ok [pattern]
    | .ok (some (start, stop)) =>
      expandEach (expandWithin left)
        ((splitAlternatives (slice pattern (start + 1) stop)).map fun part =>
          pattern.take start ++ part ++ pattern.drop (stop + 1)) []

/-- `expand`. -/
def expandAt (pattern : Bytes) (depth : Nat) : Except ExpandError (List Bytes) :=
  expandWithin (maxExpansions + 1 - depth) pattern

/-- The first occurrence of each value. -/
def distinct (patterns : List Bytes) : List Bytes :=
  patterns.foldl (fun result candidate =>
    if candidate ∈ result then result else result ++ [candidate]) []

/-- `Expand`. -/
def expand (pattern : Bytes) : Except ExpandError (List Bytes) := (expandAt pattern 0).map distinct

end Evener.GlobPattern
