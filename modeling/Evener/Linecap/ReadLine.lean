/-
  One line at a time from a buffered reader, with a cap on what a line may hold.

  A reader is the bytes it still has to give. A context is the number of its checks that still
  pass. Failing reads of the underlying file are left out.
-/
import Evener.Lib.Lines

namespace Evener.Linecap

open Evener.Lib List

/-! ## Contexts -/

/-- How many more times `Err` is nil; `none` for a context that is never cancelled. -/
abbrev Context := Option Nat

/-- One look at `Err`: the context after it, or `none` when it is cancelled. -/
def Context.check : Context → Option Context
  | none => some none
  | some 0 => none
  | some (n + 1) => some (some n)

theorem Context.check_some {ctx after : Context} (h : ctx.check = some after) (hnone : ctx = none) :
    after = none := by
  subst hnone
  cases h
  rfl

/-! ## Fragments -/

/-- The size of the buffer of `bufio.NewReader`. -/
def bufferSize : Nat := 4096

inductive SliceEnd where
  | delimiter
  | bufferFull
  | eof
deriving DecidableEq

structure Slice where
  fragment : Bytes
  stop : SliceEnd
  rest : Bytes

/-- `ReadSlice('\n')`. -/
def readSlice (input : Bytes) : Slice :=
  let window := input.take bufferSize
  if newline ∈ window then
    let size := window.idxOf newline + 1
    ⟨input.take size, .delimiter, input.drop size⟩
  else if bufferSize ≤ input.length then
    ⟨window, .bufferFull, input.drop bufferSize⟩
  else ⟨window, .eof, []⟩

/-- What a fragment is of the input, by how it ends. -/
inductive Sliced (input : Bytes) : Slice → Prop where
  | delimiter (payload rest : Bytes) (hinput : input = payload ++ newline :: rest)
      (hline : newline ∉ payload) : Sliced input ⟨payload ++ [newline], .delimiter, rest⟩
  | bufferFull (fragment rest : Bytes) (hinput : input = fragment ++ rest)
      (hline : newline ∉ fragment) (hsize : fragment.length = bufferSize) :
      Sliced input ⟨fragment, .bufferFull, rest⟩
  | eof (hline : newline ∉ input) : Sliced input ⟨input, .eof, []⟩

theorem readSlice_spec (input : Bytes) : Sliced input (readSlice input) := by
  unfold readSlice
  dsimp only
  by_cases hmem : newline ∈ input.take bufferSize
  · rw [if_pos hmem]
    obtain ⟨payload, more, hwindow, hline⟩ := eq_append_cons_of_mem hmem
    have hinput : input = payload ++ newline :: (more ++ input.drop bufferSize) := by
      conv_lhs => rw [← take_append_drop bufferSize input, hwindow]
      simp
    have hindex : (input.take bufferSize).idxOf newline = payload.length := by
      rw [hwindow, idxOf_append_of_notMem hline]
      simp
    have hsize : payload.length + 1 = (payload ++ [newline]).length := by simp
    have hsplit : input = (payload ++ [newline]) ++ (more ++ input.drop bufferSize) := by
      simpa using hinput
    have htake : input.take (payload.length + 1) = payload ++ [newline] := by
      rw [hsize]
      conv_lhs => rw [hsplit]
      exact take_left
    have hdrop : input.drop (payload.length + 1) = more ++ input.drop bufferSize := by
      rw [hsize]
      conv_lhs => rw [hsplit]
      exact drop_left
    rw [hindex, htake, hdrop]
    exact .delimiter payload _ hinput hline
  · rw [if_neg hmem]
    by_cases hfull : bufferSize ≤ input.length
    · rw [if_pos hfull]
      refine .bufferFull _ _ (take_append_drop _ _).symm hmem ?_
      rw [length_take]
      omega
    · rw [if_neg hfull]
      rw [take_of_length_le (by omega)] at hmem ⊢
      exact .eof hmem

theorem readSlice_full {input : Bytes} (h : (readSlice input).stop = .bufferFull) :
    (readSlice input).rest.length < input.length := by
  generalize readSlice input = slice, readSlice_spec input = hslice at h
  cases hslice with
  | delimiter => cases h
  | bufferFull fragment rest hinput _ hsize =>
    rw [hinput, length_append, hsize]
    unfold bufferSize
    dsimp only
    omega
  | eof => cases h

/-! ## Lines -/

inductive ReadErr where
  | canceled
  | eof
  | tooLong
deriving DecidableEq

/-- What `ReadLine` returns, with the reader and the context after it. -/
structure LineRead where
  line : Bytes
  terminated : Bool
  consumed : Nat
  err : Option ReadErr
  rest : Bytes
  ctx : Context

/-- The loop of `ReadLine`. -/
def readFragments (maxLineBytes : Int) (ctx : Context) (input line : Bytes) (overLimit : Bool)
    (drained consumed : Nat) : LineRead :=
  match ctx.check with
  | none => ⟨[], false, consumed, some .canceled, input, ctx⟩
  | some ctx =>
    let slice := readSlice input
    let consumed := consumed + slice.fragment.length
    let payload := if slice.stop = .delimiter then slice.fragment.dropLast else slice.fragment
    let drained := if overLimit then drained + slice.fragment.length else drained
    if overLimit ∧ maxLineBytes < drained then
      ⟨[], false, consumed, some .tooLong, slice.rest, ctx⟩
    else
      let tooLong := overLimit || decide (maxLineBytes < line.length + payload.length)
      let line := if tooLong then [] else line ++ payload
      match _ : slice.stop with
      | .delimiter =>
        if tooLong then ⟨[], false, consumed, some .tooLong, slice.rest, ctx⟩
        else ⟨line, true, consumed, none, slice.rest, ctx⟩
      | .bufferFull => readFragments maxLineBytes ctx slice.rest line tooLong drained consumed
      | .eof =>
        if tooLong then ⟨[], false, consumed, some .tooLong, slice.rest, ctx⟩
        else if line = [] then ⟨[], false, consumed, some .eof, slice.rest, ctx⟩
        else ⟨line, false, consumed, none, slice.rest, ctx⟩
termination_by input.length
decreasing_by exact readSlice_full (by assumption)

def readLine (ctx : Context) (input : Bytes) (maxLineBytes : Int) : LineRead :=
  readFragments maxLineBytes ctx input [] false 0 0

/-- The bytes before the first newline, all of them when there is none. -/
def firstLine (input : Bytes) : Bytes := input.takeWhile (· ≠ newline)

theorem firstLine_append {p : Bytes} (h : newline ∉ p) (q : Bytes) :
    firstLine (p ++ q) = p ++ firstLine q := by
  unfold firstLine
  refine takeWhile_append_of_pos fun b hb => ?_
  simpa using fun heq : b = newline => h (heq ▸ hb)

variable {line : Bytes} {maxLineBytes : Int}

theorem firstLine_line (h : newline ∉ line) (rest : Bytes) :
    firstLine (line ++ newline :: rest) = line := by
  rw [firstLine_append h]
  simp [firstLine]

theorem firstLine_of_not_mem {p : Bytes} (h : newline ∉ p) : firstLine p = p := by
  simpa [firstLine] using firstLine_append h []

/-- What `ReadLine` can return on an input. -/
inductive Reads (ctx : Context) (maxLineBytes : Int) (input : Bytes) : LineRead → Prop where
  | canceled (consumed : Nat) (rest : Bytes) (after : Context) (hctx : ctx ≠ none) :
      Reads ctx maxLineBytes input ⟨[], false, consumed, some .canceled, rest, after⟩
  | tooLong (consumed : Nat) (rest : Bytes) (after : Context)
      (hlong : maxLineBytes < (firstLine input).length) :
      Reads ctx maxLineBytes input ⟨[], false, consumed, some .tooLong, rest, after⟩
  | eof (after : Context) (hctx : ctx = none → after = none) (hempty : input = []) :
      Reads ctx maxLineBytes input ⟨[], false, 0, some .eof, [], after⟩
  | line (line rest : Bytes) (after : Context) (hctx : ctx = none → after = none)
      (hinput : input = line ++ newline :: rest) (hline : newline ∉ line)
      (hcap : line.length ≤ maxLineBytes) :
      Reads ctx maxLineBytes input ⟨line, true, line.length + 1, none, rest, after⟩
  | tail (after : Context) (hctx : ctx = none → after = none) (hne : input ≠ [])
      (hline : newline ∉ input) (hcap : input.length ≤ maxLineBytes) :
      Reads ctx maxLineBytes input ⟨input, false, input.length, none, [], after⟩

/-- Whether the line is over the cap once `payload` is read as well. -/
theorem over_cases {done : Bytes} {overLimit : Bool} (hline : overLimit = false → line = done)
    (hover : overLimit = true → maxLineBytes < done.length) (payload : Bytes) :
    ((overLimit || decide (maxLineBytes < line.length + payload.length)) = true ∧
      maxLineBytes < (done ++ payload).length) ∨
    ((overLimit || decide (maxLineBytes < line.length + payload.length)) = false ∧
      (done ++ payload).length ≤ maxLineBytes ∧ line = done) := by
  rw [length_append]
  cases overLimit with
  | true =>
    have := hover rfl
    exact Or.inl ⟨rfl, by omega⟩
  | false =>
    rw [hline rfl]
    by_cases h : maxLineBytes < done.length + payload.length
    · exact Or.inl ⟨by simpa using h, by omega⟩
    · exact Or.inr ⟨by simpa using h, by omega, rfl⟩

/-- The loop after it has read `done`, which `line` holds until the cap is passed. -/
theorem readFragments_spec {ctx₀ : Context} (n : Nat) :
    ∀ (ctx : Context) (done input line : Bytes) (overLimit : Bool) (drained : Nat),
      input.length ≤ n → newline ∉ done → (ctx₀ = none → ctx = none) →
      (overLimit = false → line = done) → (overLimit = true → maxLineBytes < done.length) →
      Reads ctx₀ maxLineBytes (done ++ input)
        (readFragments maxLineBytes ctx input line overLimit drained done.length) := by
  induction n using Nat.strongRecOn with
  | ind n ih =>
  intro ctx done input line overLimit drained hlength hdone hctx hline hover
  rw [readFragments]
  cases hcheck : ctx.check with
  | none =>
    refine .canceled _ _ _ fun hnone => ?_
    rw [hctx hnone] at hcheck
    cases hcheck
  | some after =>
    have hafter : ctx₀ = none → after = none := fun hnone => ctx.check_some hcheck (hctx hnone)
    dsimp only
    generalize readSlice input = slice, readSlice_spec input = hslice
    generalize (if overLimit = true then drained + slice.fragment.length else drained) = drained'
    by_cases hdrained : overLimit = true ∧ maxLineBytes < drained'
    · rw [if_pos hdrained]
      have := hover hdrained.1
      refine .tooLong _ _ _ ?_
      rw [firstLine_append hdone, length_append]
      omega
    rw [if_neg hdrained]
    cases hslice with
    | delimiter payload rest hinput hpayload =>
      have hnot : newline ∉ done ++ payload := by simp [hdone, hpayload]
      rw [hinput, ← append_assoc]
      simp only [if_true, dropLast_concat]
      rcases over_cases hline hover payload with ⟨htrue, hlong⟩ | ⟨hfalse, hcap, rfl⟩
      · rw [htrue]
        refine .tooLong _ _ _ ?_
        rwa [firstLine_line hnot]
      · rw [hfalse]
        have hlength : line.length + (payload ++ [newline]).length = (line ++ payload).length + 1 := by
          simp [Nat.add_assoc]
        simp only [Bool.false_eq_true, if_false, hlength]
        exact .line _ _ _ hafter rfl hnot hcap
    | bufferFull fragment rest hinput hfragment hsize =>
      have hnot : newline ∉ done ++ fragment := by simp [hdone, hfragment]
      rw [hinput, ← append_assoc]
      simp only [reduceCtorEq, if_false]
      rw [← length_append]
      refine ih rest.length ?_ after (done ++ fragment) rest _ _ _ (Nat.le_refl _) hnot hafter ?_ ?_
      · rw [hinput, length_append, hsize] at hlength
        unfold bufferSize at hlength
        omega
      · rcases over_cases hline hover fragment with ⟨htrue, _⟩ | ⟨hfalse, _, rfl⟩
        · intro hfalse
          rw [htrue] at hfalse
          cases hfalse
        · intro _
          rw [hfalse]
          simp
      · rcases over_cases hline hover fragment with ⟨_, hlong⟩ | ⟨hfalse, _, _⟩
        · exact fun _ => hlong
        · intro htrue
          rw [hfalse] at htrue
          cases htrue
    | eof hinput =>
      have hnot : newline ∉ done ++ input := by simp [hdone, hinput]
      simp only [reduceCtorEq, if_false]
      rcases over_cases hline hover input with ⟨htrue, hlong⟩ | ⟨hfalse, hcap, rfl⟩
      · rw [htrue]
        refine .tooLong _ _ _ ?_
        rwa [firstLine_of_not_mem hnot]
      · rw [hfalse]
        simp only [Bool.false_eq_true, if_false]
        by_cases hempty : line ++ input = []
        · rw [if_pos hempty, ← length_append, hempty]
          exact .eof _ hafter rfl
        · rw [if_neg hempty, ← length_append]
          exact .tail _ hafter hempty hnot hcap

theorem readLine_spec (ctx : Context) (input : Bytes) (maxLineBytes : Int) :
    Reads ctx maxLineBytes input (readLine ctx input maxLineBytes) :=
  readFragments_spec input.length ctx [] input [] false 0 (Nat.le_refl _) not_mem_nil id
    (fun _ => rfl) (fun h => nomatch h)

/-- A line under the cap is read as it is. -/
theorem readLine_line (h : newline ∉ line) (hcap : line.length ≤ maxLineBytes) (rest : Bytes) :
    readLine none (line ++ newline :: rest) maxLineBytes =
      ⟨line, true, line.length + 1, none, rest, none⟩ := by
  have hfirst := firstLine_line h rest
  generalize hinput : line ++ newline :: rest = input at hfirst
  generalize readLine none input maxLineBytes = read, readLine_spec none input maxLineBytes = hread
  cases hread with
  | canceled consumed rest after hctx => exact absurd rfl hctx
  | tooLong consumed rest after hlong =>
    rw [hfirst] at hlong
    omega
  | eof after hctx hempty =>
    rw [hempty] at hinput
    simp at hinput
  | line line' rest' after hctx hinput' hnot hcap' =>
    rw [hinput', firstLine_line hnot] at hfirst
    subst hfirst
    rw [← hinput] at hinput'
    rw [hctx rfl, (List.cons.inj (append_cancel_left hinput')).2]
  | tail after hctx hne hnot hcap' =>
    rw [← hinput] at hnot
    simp at hnot

/-- A line read leaves less to read. -/
theorem readLine_rest {ctx : Context} {input : Bytes}
    (h : (readLine ctx input maxLineBytes).err = none) :
    (readLine ctx input maxLineBytes).rest.length < input.length := by
  generalize readLine ctx input maxLineBytes = read, readLine_spec ctx input maxLineBytes = hread at h
  cases hread with
  | canceled => cases h
  | tooLong => cases h
  | eof => cases h
  | line line rest after hctx hinput =>
    rw [hinput, length_append, length_cons]
    dsimp only
    omega
  | tail after hctx hne =>
    exact length_pos_iff.mpr hne

end Evener.Linecap
