/-
  The failure ledger of the repeated-call breaker: two stores that forget the least recently used
  key, one by the exact call with the streak of identical bodies, one by the call's fingerprint with
  the streak of failures of one class.
-/
import Evener.Lib.Recency
import Evener.Lib.ByteText
import Evener.Lib.Text

namespace Evener.Tool.Breaker
open Evener.Lib

/-- `crypto/sha256` and `strings.ToLower`. -/
structure Runtime where
  sha256 : Bytes → Vector UInt8 32
  toLower : String → String

def maxFailureLedgerEntries : Nat := 512

def maxFailureSnippets : Nat := 2

def maxFailureSnippetRunes : Nat := 500

/-! ## Texts -/

def hexDigit (n : Nat) : Char := (("0123456789abcdef".toList)[n]?).getD '0'

/-- `hex.EncodeToString`. -/
def hexEncode (bytes : List UInt8) : String :=
  String.ofList (bytes.flatMap fun b => [hexDigit (b.toNat / 16), hexDigit (b.toNat % 16)])

def shortHash (rt : Runtime) (b : Bytes) : String := hexEncode ((rt.sha256 b).toList.take 8)

def truncateRunes (s : String) (maxRunes : Nat) : String :=
  if s.toList.length ≤ maxRunes then s else String.ofList (s.toList.take maxRunes)

/-- `strings.Split(s, "\n")`, as texts of characters. -/
def splitLinesOf (s : List Char) : List (List Char) := s.splitOn '\n'

def firstNonBlankLine (s : String) : String :=
  String.ofList (((splitLinesOf s.toList).find? fun line => trimWhite line ≠ []).getD [])

/-- `strings.Fields`. -/
def fields (s : String) : List String :=
  ((s.toList.splitOnP isWhite).filter (· ≠ [])).map String.ofList

/-- Each run of digits becomes one replacement; `inDigits` is whether the text is inside one. -/
def replaceDigits (replacement : List Char) : Bool → List Char → List Char
  | _, [] => []
  | inDigits, c :: rest =>
    if '0' ≤ c ∧ c ≤ '9' then
      (if inDigits then [] else replacement) ++ replaceDigits replacement true rest
    else c :: replaceDigits replacement false rest

def replaceDigitRuns (s replacement : String) : String :=
  String.ofList (replaceDigits replacement.toList false s.toList)

def errorClass (rt : Runtime) (output : String) : String :=
  let line := firstNonBlankLine output
  let line := " ".intercalate (fields line)
  let line := rt.toLower line
  let line := replaceDigitRuns line "#"
  let line := truncateRunes line 200
  hexEncode ((rt.sha256 (utf8 line)).toList.take 4)

/-! ## The ledger -/

structure FailureEntry where
  cls : String := ""
  count : Nat := 0
  snippets : List String := []
  bodyHash : String := ""
  bodyCount : Nat := 0
  deriving DecidableEq

structure DispatchKey where
  exact : String
  semantic : String
  deriving DecidableEq

/-- `entries` with `order`, and `semantic` with `semanticOrder`. -/
structure FailureLedger where
  exact : Recency String FailureEntry
  semantic : Recency String FailureEntry

def newFailureLedger : FailureLedger := ⟨.empty, .empty⟩

def observeFailure (rt : Runtime) (e : FailureEntry) (isErr : Bool) (output : String) :
    FailureEntry :=
  if isErr then
    let cls := errorClass rt output
    let snippet := truncateRunes output maxFailureSnippetRunes
    if e.cls ≠ cls then { e with cls := cls, count := 1, snippets := [snippet] }
    else
      let kept := if maxFailureSnippets ≤ e.snippets.length then e.snippets.tail else e.snippets
      { e with count := e.count + 1, snippets := kept ++ [snippet] }
  else { e with cls := "", count := 0, snippets := [] }

/-- One more result body on the exact call. -/
def observeBody (rt : Runtime) (e : FailureEntry) (output : String) : FailureEntry :=
  let bodyHash := shortHash rt (utf8 output)
  if e.bodyHash = bodyHash then { e with bodyCount := e.bodyCount + 1 }
  else { e with bodyHash := bodyHash, bodyCount := 1 }

structure Judgement where
  failStreak : Nat := 0
  repeatStreak : Nat := 0
  snippets : List String := []
  deriving DecidableEq

namespace FailureLedger

def check (l : FailureLedger) (key : DispatchKey) : Judgement :=
  let s := l.semantic.entries key.semantic
  { failStreak := (s.map (·.count)).getD 0
    repeatStreak := ((l.exact.entries key.exact).map (·.bodyCount)).getD 0
    snippets := (s.map (·.snippets)).getD [] }

def record (rt : Runtime) (l : FailureLedger) (key : DispatchKey) (isErr : Bool) (output : String) :
    FailureLedger × Judgement :=
  let e := observeBody rt ((l.exact.entries key.exact).getD {}) output
  let exact := l.exact.put maxFailureLedgerEntries key.exact e
  match l.semantic.entries key.semantic, isErr with
  -- a success of a fingerprint without an entry makes none
  | none, false => ({ l with exact := exact }, { repeatStreak := e.bodyCount })
  | held, isErr =>
    let s := observeFailure rt (held.getD {}) isErr output
    (⟨exact, l.semantic.put maxFailureLedgerEntries key.semantic s⟩,
      { failStreak := s.count, repeatStreak := e.bodyCount })

def clearFailures (l : FailureLedger) (key : DispatchKey) : FailureLedger where
  exact :=
    if l.exact.entries key.exact = none then l.exact
    else l.exact.touch maxFailureLedgerEntries key.exact
  semantic :=
    match l.semantic.entries key.semantic with
    | none => l.semantic
    | some e => l.semantic.put maxFailureLedgerEntries key.semantic
        { e with cls := "", count := 0, snippets := [] }

end FailureLedger

/-- What a session does with its ledger. -/
inductive Op where
  | check (key : DispatchKey)
  | record (key : DispatchKey) (isErr : Bool) (output : String)
  | clearFailures (key : DispatchKey)
  deriving DecidableEq

def Op.key : Op → DispatchKey
  | .check key | .record key _ _ | .clearFailures key => key

/-- The ledger after an operation, and what it answers. -/
def FailureLedger.step (rt : Runtime) (l : FailureLedger) : Op → FailureLedger × Judgement
  | .check key => (l, l.check key)
  | .record key isErr output => l.record rt key isErr output
  | .clearFailures key => (l.clearFailures key, {})

def run (rt : Runtime) (ops : List Op) : FailureLedger :=
  ops.foldl (fun l op => (l.step rt op).1) newFailureLedger

end Evener.Tool.Breaker
