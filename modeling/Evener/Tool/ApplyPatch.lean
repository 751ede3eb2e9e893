/-
  The `apply_patch` tool: the v4a patch language and what a patch does to the files behind a
  mutator.

  The rendered snippets of a mismatch error are left out; its fields are kept.
-/
import Evener.Lib.CheckedFold
import Evener.Lib.Text

namespace Evener.Tool

open Evener.Lib

inductive PatchError where
  | expectedBegin
  | missingEnd
  | unexpectedLine (line : String)
  | expectedPlus (path line : String)
  | expectedLinesNotFound (path want : String) (line : Nat) (got : String)
  | file (err : String)
deriving DecidableEq

/-- `execenv.FileMutator`, over the files as a state. -/
structure FileMutator (σ : Type) where
  readFileRaw : String → σ → Except String String
  writeFileRaw : String → String → σ → Except String σ
  removePath : String → σ → Except String σ
  renamePath : String → String → σ → Except String σ

/-! ## Texts -/

/-- `strings.Split(s, "\n")`. -/
def splitText (s : String) : List String := (s.toList.splitOn '\n').map String.ofList

/-- `strings.Join(lines, "\n")`. -/
def joinText (lines : List String) : String := "\n".intercalate lines

def endsWith (s ending : String) : Bool := ending.toList.isSuffixOf s.toList

/-- `strings.TrimSuffix`. -/
def trimEnding (s ending : String) : String :=
  if endsWith s ending then String.ofList (s.toList.take (s.toList.length - ending.toList.length))
  else s

/-- `strings.ReplaceAll(s, "\r\n", "\n")`, on characters. -/
def replaceCRLF : List Char → List Char
  | [] => []
  | '\r' :: '\n' :: l => '\n' :: replaceCRLF l
  | c :: l => c :: replaceCRLF l

def normalizeNewlines (s : String) : String := String.ofList (replaceCRLF s.toList)

/-- `strings.TrimRight`. -/
def trimRight (s : String) (cutset : List Char) : String :=
  String.ofList ((s.toList.reverse.dropWhile fun c => c ∈ cutset).reverse)

def normalizeWS (s : String) : String :=
  " ".intercalate (((s.toList.splitOnP isWhite).filter fun word => word ≠ []).map String.ofList)

def normalizeUnicode (s : String) : String :=
  String.ofList (s.toList.flatMap fun c =>
    if c.toNat = 0x2018 ∨ c.toNat = 0x2019 then [Char.ofNat 0x27]
    else if c.toNat = 0x201C ∨ c.toNat = 0x201D then [Char.ofNat 0x22]
    else if c.toNat = 0x2013 ∨ c.toNat = 0x2014 then ['-']
    else if c.toNat = 0x2026 then ['.', '.', '.']
    else if c.toNat = 0xA0 then [' ']
    else [c])

/-! ## Matching lines -/

def fuzzyLineMatch (a b : String) : Bool :=
  a = b || normalizeWS a = normalizeWS b ||
    (normalizeWS a ≠ "" && normalizeUnicode (normalizeWS a) = normalizeUnicode (normalizeWS b))

inductive LineMatchMode where
  | matchExact
  | matchTrimRight
  | matchTrimBoth
  | matchUnicodeNormalized
  | matchFuzzyLine

def lineMatchesMode (a b : String) : LineMatchMode → Bool
  | .matchExact => a = b
  | .matchTrimRight => trimRight a [' ', '\t', '\r'] = trimRight b [' ', '\t', '\r']
  | .matchTrimBoth => trimSpace a = trimSpace b
  | .matchUnicodeNormalized => normalizeUnicode (trimSpace a) = normalizeUnicode (trimSpace b)
  | .matchFuzzyLine => fuzzyLineMatch a b

/-- The lines are as many as the pattern's. -/
def lineSequenceMatches (lines pattern : List String) (mode : LineMatchMode) : Bool :=
  (lines.zip pattern).all fun p => lineMatchesMode p.1 p.2 mode

def seekMode (lines pattern : List String) (start : Nat) (mode : LineMatchMode) : Option Nat :=
  (List.range' start (lines.length - pattern.length + 1 - start)).find? fun i =>
    lineSequenceMatches ((lines.drop i).take pattern.length) pattern mode

def seekLineSequence (lines pattern : List String) (start : Nat) : Option Nat :=
  if pattern.length = 0 then some start
  else if lines.length < pattern.length ∨ lines.length - pattern.length < start then none
  else
    seekMode lines pattern start .matchExact <|> seekMode lines pattern start .matchTrimRight <|>
      seekMode lines pattern start .matchTrimBoth <|>
      seekMode lines pattern start .matchUnicodeNormalized <|>
      seekMode lines pattern start .matchFuzzyLine

def indexFrom (lines : List String) (start : Nat) (p : String → Bool) : Option Nat :=
  ((lines.drop start).findIdx? p).map (start + ·)

def indexOfLine (lines : List String) (want : String) (start : Nat) : Option Nat :=
  indexFrom lines start (fun line => line = want) <|>
    if normalizeWS want = "" then none
    else
      indexFrom lines start (fun line => normalizeWS line = normalizeWS want) <|>
        indexFrom lines start fun line =>
          normalizeUnicode (normalizeWS line) = normalizeUnicode (normalizeWS want)

def mismatchLineForMissingSequence (lines : List String) (want : String) (searchStart : Nat) : Nat :=
  match indexFrom lines searchStart fun line => fuzzyLineMatch line want with
  | some i => i + 1
  | none => if lines.length = 0 then 0 else min (searchStart + 1) lines.length

/-! ## Hunks -/

/-- A hunk line: its first character and what follows. -/
structure ReplacementEntry where
  sign : Char
  body : String
deriving DecidableEq

def replacementEntriesFromHunk (hunk : List String) : List ReplacementEntry :=
  hunk.filterMap fun l =>
    if startsWith l "@@" then none
    else
      match l.toList with
      | [] => none
      | c :: body => if c ∈ [' ', '-', '+'] then some ⟨c, String.ofList body⟩ else none

def oldLinesFromEntries (entries : List ReplacementEntry) : List String :=
  (entries.filter fun entry => entry.sign = ' ' || entry.sign = '-').map ReplacementEntry.body

def newLinesFromEntries (entries : List ReplacementEntry) : List String :=
  (entries.filter fun entry => entry.sign = ' ' || entry.sign = '+').map ReplacementEntry.body

/-- A kept line is written as the file has it. -/
def applyReplacementEntries : List String → List ReplacementEntry → List String
  | _, [] => []
  | matched, entry :: entries =>
    if entry.sign = ' ' then
      (matched.head?.getD entry.body) :: applyReplacementEntries matched.tail entries
    else if entry.sign = '-' then applyReplacementEntries matched.tail entries
    else if entry.sign = '+' then entry.body :: applyReplacementEntries matched entries
    else applyReplacementEntries matched entries

def hintFromHunk (hunk : List String) : String :=
  match hunk.find? fun l => startsWith l "@@" with
  | some l => trimSpace (trimStart l "@@")
  | none => ""

/-- The lines written so far, and how many of the original ones they stand for. -/
def applyHunk (path : String) (origLines : List String) (acc : List String × Nat)
    (h : List String) : Except PatchError (List String × Nat) :=
  let entries := replacementEntriesFromHunk h
  let oldLines := oldLinesFromEntries entries
  match oldLines with
  | [] => .ok (acc.1 ++ newLinesFromEntries entries, acc.2)
  | want :: _ =>
    let hint := hintFromHunk h
    let searchStart :=
      if hint ≠ "" then (indexOfLine origLines hint acc.2).getD acc.2 else acc.2
    let found := seekLineSequence origLines oldLines searchStart <|>
      if searchStart ≠ acc.2 then seekLineSequence origLines oldLines acc.2 else none
    match found with
    | none =>
      let diagLine := mismatchLineForMissingSequence origLines want searchStart
      .error (.expectedLinesNotFound path want diagLine
        (if diagLine = 0 then "" else origLines.getD (diagLine - 1) ""))
    | some k =>
      .ok (acc.1 ++ (origLines.take k).drop acc.2 ++
          applyReplacementEntries ((origLines.drop k).take oldLines.length) entries,
        k + oldLines.length)

/-! ## Operations -/

inductive PatchOp where
  | addFile (path : String) (lines : List String)
  | deleteFile (path : String)
  | updateFile (path moveTo : String) (hunks : List (List String))
deriving DecidableEq

/-- The text that an update makes of a text. -/
def updatedText (path : String) (hunks : List (List String)) (text : String) :
    Except PatchError String := do
  let origText := normalizeNewlines text
  let origLines := splitText (trimEnding origText "\n")
  let (out, pos) ← hunks.foldlM (applyHunk path origLines) ([], 0)
  let newText := joinText (out ++ origLines.drop pos)
  return if endsWith origText "\n" then newText ++ "\n" else newText

section Apply

variable {σ : Type} (fm : FileMutator σ)

/-- The paths touched, or the error, and the files as they are left. -/
def PatchOp.apply (files : σ) : PatchOp → Except PatchError (List String) × σ
  | .addFile path lines =>
    let content := joinText lines
    let content := if endsWith content "\n" then content else content ++ "\n"
    match fm.writeFileRaw path content files with
    | .error err => (.error (.file err), files)
    | .ok files => (.ok [path], files)
  | .deleteFile path =>
    match fm.removePath path files with
    | .error err => (.error (.file err), files)
    | .ok files => (.ok [path], files)
  | .updateFile path moveTo hunks =>
    match fm.readFileRaw path files with
    | .error err => (.error (.file err), files)
    | .ok text =>
      match updatedText path hunks text with
      | .error err => (.error err, files)
      | .ok newText =>
        match fm.writeFileRaw path newText files with
        | .error err => (.error (.file err), files)
        | .ok files =>
          if trimSpace moveTo ≠ "" ∧ moveTo ≠ path then
            match fm.renamePath path moveTo files with
            | .error err => (.error (.file err), files)
            | .ok files => (.ok [path, moveTo], files)
          else (.ok [path], files)

/-- The operations before one that fails stay applied. -/
def applyOps (files : σ) : List PatchOp → Except PatchError (List String) × σ
  | [] => (.ok [], files)
  | op :: ops =>
    match op.apply fm files with
    | (.error err, files) => (.error err, files)
    | (.ok paths, files) =>
      match applyOps files ops with
      | (.error err, files) => (.error err, files)
      | (.ok touched, files) => (.ok (paths ++ touched), files)

end Apply

/-! ## Parsing -/

def takeAdded (path : String) : List String → Except PatchError (List String × List String)
  | [] => .ok ([], [])
  | l :: ls =>
    if startsWith l "*** " then .ok ([], l :: ls)
    else if startsWith l "+" = false then .error (.expectedPlus path l)
    else do
      let (content, rest) ← takeAdded path ls
      return (trimStart l "+" :: content, rest)

def endHunks (cur : List String) : List (List String) := if cur = [] then [] else [cur]

/-- The hunks of an update and the lines behind them; `cur` is the hunk being read. -/
def takeHunks (cur : List String) : List String → List (List String) × List String
  | [] => (endHunks cur, [])
  | l :: ls =>
    if startsWith l "*** " ∨ trimSpace l = "*** End Patch" then (endHunks cur, l :: ls)
    else if startsWith l "@@" ∧ cur ≠ [] then
      let (hunks, rest) := takeHunks [l] ls
      (cur :: hunks, rest)
    else takeHunks (cur ++ [l]) ls

/-- Every turn reads a line, so there need be no more turns than lines. -/
def parseOps : Nat → List String → Except PatchError (List PatchOp)
  | 0, _ => .error .missingEnd
  | _, [] => .error .missingEnd
  | turns + 1, l :: ls =>
    if trimSpace l = "*** End Patch" then .ok []
    else if trimSpace l = "" then parseOps turns ls
    else if trimSpace l = "*** End of File" then parseOps turns ls
    else if startsWith l "*** Add File: " then do
      let path := trimSpace (trimStart l "*** Add File: ")
      let (content, rest) ← takeAdded path ls
      let ops ← parseOps turns rest
      return .addFile path content :: ops
    else if startsWith l "*** Delete File: " then do
      let ops ← parseOps turns ls
      return .deleteFile (trimSpace (trimStart l "*** Delete File: ")) :: ops
    else if startsWith l "*** Update File: " then do
      let path := trimSpace (trimStart l "*** Update File: ")
      let (moveTo, ls) :=
        match ls with
        | next :: rest =>
          if startsWith next "*** Move to: " then (trimSpace (trimStart next "*** Move to: "), rest)
          else ("", ls)
        | [] => ("", ls)
      let (hunks, rest) := takeHunks [] ls
      let ops ← parseOps turns rest
      return .updateFile path moveTo hunks :: ops
    else .error (.unexpectedLine l)

def parseV4APatchLines (lines : List String) : Except PatchError (List PatchOp) :=
  match lines with
  | [] => .error .expectedBegin
  | l :: ls =>
    if trimSpace l ≠ "*** Begin Patch" then .error .expectedBegin else parseOps (ls.length + 1) ls

def parseV4APatch (patch : String) : Except PatchError (List PatchOp) :=
  parseV4APatchLines (splitText (normalizeNewlines patch))

/-- The tool's answer, and the files as they are left. -/
def applyPatch {σ : Type} (fm : FileMutator σ) (patch : String) (files : σ) :
    Except PatchError String × σ :=
  match parseV4APatch patch with
  | .error err => (.error err, files)
  | .ok ops =>
    match applyOps fm files ops with
    | (.error err, files) => (.error err, files)
    | (.ok [], files) => (.ok "no changes", files)
    | (.ok touched, files) => (.ok ("applied patch to:\n" ++ joinText touched), files)

end Evener.Tool
