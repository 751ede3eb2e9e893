/-
  Pages of a journal: what one call reads, and the cursor it leaves.

  A failing file fails the call like a cancelled context does, so those failures are left out, and
  so are the counts and the file info of the cursor. The file does not change during a call.
-/
import Evener.Linecap.ReadLine

namespace Evener.Linecap

open Evener.Lib

structure JournalCursor where
  offset : Nat := 0
  pending : Bytes := []
deriving DecidableEq

structure JournalLine where
  bytes : Bytes
  terminated : Bool
  endOffset : Nat
deriving DecidableEq

inductive PageErr where
  | canceled
  | limits
  | tooLong
deriving DecidableEq

/-- The lines a page has read so far, and the cursor and the context after them. -/
structure PageRead where
  lines : List JournalLine
  next : JournalCursor
  ctx : Context

/-- The loop of `ReadJournalPage`, with `left` lines to go; a round that goes on has added one. -/
def pageLines (size : Nat) (byteLimit maxLineBytes : Int) :
    Nat → Context → Bytes → Nat → JournalCursor → List JournalLine → Except PageErr PageRead
  | 0, ctx, _, _, next, lines => .ok ⟨lines, next, ctx⟩
  | left + 1, ctx, input, used, next, lines =>
    if byteLimit ≤ used then .ok ⟨lines, next, ctx⟩
    else
      let read := readLine ctx input (maxLineBytes - next.pending.length)
      match read.err with
      | some .canceled => .error .canceled
      | some .tooLong => .error .tooLong
      | some .eof | none =>
        let offset := next.offset + read.consumed
        let pending := next.pending ++ read.line
        let atEnd := size ≤ offset
        if maxLineBytes < pending.length then .error .tooLong
        else if ¬ read.terminated ∧ ¬ atEnd then .ok ⟨lines, ⟨offset, pending⟩, read.ctx⟩
        else if pending ≠ [] ∨ read.terminated then
          let lines := lines ++ [⟨pending, read.terminated, offset⟩]
          if atEnd then .ok ⟨lines, ⟨offset, []⟩, read.ctx⟩
          else pageLines size byteLimit maxLineBytes left read.ctx read.rest
            (used + read.consumed) ⟨offset, []⟩ lines
        else .ok ⟨lines, ⟨offset, pending⟩, read.ctx⟩

/-- What a page returns: its lines, whether the journal is read, and the new cursor. -/
structure Page where
  lines : List JournalLine
  complete : Bool
  cursor : JournalCursor
deriving DecidableEq

/-- A missing file is `none`. A call that fails leaves the caller's cursor as it was. -/
def readJournalPage (ctx : Context) (file : Option Bytes) (cursor : JournalCursor)
    (byteLimit lineLimit maxLineBytes : Int) : Except PageErr Page :=
  match ctx.check with
  | none => .error .canceled
  | some ctx =>
    if byteLimit ≤ 0 ∨ lineLimit ≤ 0 ∨ maxLineBytes ≤ 0 then .error .limits
    else match file with
      | none => .ok ⟨[], true, cursor⟩
      | some content => do
        let input := (content.drop cursor.offset).take byteLimit.toNat
        let read ← pageLines content.length byteLimit maxLineBytes lineLimit.toNat ctx input 0
          cursor []
        match read.ctx.check with
        | none => .error .canceled
        | some _ =>
          let complete := content.length ≤ read.next.offset ∧ read.next.pending = []
          return ⟨read.lines, decide complete, read.next⟩

/-- The lines of a page as `ReadPage` takes them: an unterminated one goes back into the cursor. -/
def putBack (lines : List JournalLine) (cursor : JournalCursor) : JournalCursor :=
  lines.foldl (fun cursor line =>
    if line.terminated then cursor else { cursor with pending := line.bytes }) cursor

end Evener.Linecap
