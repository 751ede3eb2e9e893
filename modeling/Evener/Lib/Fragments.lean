/-
  What a buffered reader's `ReadSlice('\n')` answers over a stream: fragments that end with the
  newline, with a full buffer or with the stream. A full buffer may cut a line anywhere.
-/
import Evener.Lib.Lines

namespace Evener.Lib

inductive ReadEnd where
  | delimiter
  | bufferFull
  | eof
  | failed
deriving DecidableEq

structure Answer where
  frag : Bytes
  stop : ReadEnd
deriving DecidableEq

/-- The answers cut the stream into fragments. -/
inductive Fragmented : Bytes → List Answer → Prop where
  | line {payload rest : Bytes} {answers : List Answer} (hline : newline ∉ payload)
      (h : Fragmented rest answers) :
      Fragmented (payload ++ newline :: rest) (⟨payload ++ [newline], .delimiter⟩ :: answers)
  | full {payload rest : Bytes} {answers : List Answer} (hline : newline ∉ payload)
      (h : Fragmented rest answers) :
      Fragmented (payload ++ rest) (⟨payload, .bufferFull⟩ :: answers)
  | eof {payload : Bytes} (hline : newline ∉ payload) : Fragmented payload [⟨payload, .eof⟩]

theorem splitLines_cons {line : Bytes} (h : newline ∉ line) (rest : Bytes) :
    splitLines (line ++ newline :: rest) =
      (line :: (splitLines rest).1, (splitLines rest).2) := by
  have hfirst : splitLines (line ++ [newline]) = ([line], []) := splitLines_line h
  rw [show line ++ newline :: rest = (line ++ [newline]) ++ rest by simp,
    splitLines_append (by rw [hfirst]), hfirst]
  rfl

/-- The lines with their newlines; a last one may have none. -/
def rawLines (stream : Bytes) : List Bytes :=
  (splitLines stream).1.map (· ++ [newline]) ++
    if (splitLines stream).2 = [] then [] else [(splitLines stream).2]

theorem rawLines_cons {line : Bytes} (h : newline ∉ line) (rest : Bytes) :
    rawLines (line ++ newline :: rest) = (line ++ [newline]) :: rawLines rest := by
  unfold rawLines
  rw [splitLines_cons h]
  rfl

theorem rawLines_tail {tail : Bytes} (h : newline ∉ tail) :
    rawLines tail = if tail = [] then [] else [tail] := by
  unfold rawLines
  rw [splitLines_of_not_mem h]
  rfl

end Evener.Lib
