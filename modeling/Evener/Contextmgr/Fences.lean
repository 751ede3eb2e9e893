/-
  Markdown fences, followed line by line.

  A block that is rendered at the top level opens with more backticks than its text has in a row,
  so no line of the text closes it (`content_step`), and its own last line does (`closing_step`).
-/
import Evener.Lib.Numerals
import Evener.Lib.ByteText

namespace Evener.Contextmgr

open Evener.Lib List

def space : UInt8 := 32
def tab : UInt8 := 9
def backtick : UInt8 := 96
def tilde : UInt8 := 126

/-! ## Lines -/

def columnsFrom (columns : Nat) : Bytes → Nat
  | [] => columns
  | b :: rest =>
    if b = space then columnsFrom (columns + 1) rest
    else if b = tab then columnsFrom (columns + (4 - columns % 4)) rest
    else columns

def leadingColumns (line : Bytes) : Nat := columnsFrom 0 line

/-- `strings.TrimLeft` of one character. -/
def trimLeftOf (b : UInt8) (l : Bytes) : Bytes := l.dropWhile (· == b)

/-- The fence's character and length, and the rest of the line. -/
def fenceRunAt (line : Bytes) (base : Nat) : Option (UInt8 × Nat × Bytes) :=
  if line.length < base ∨ trimLeftOf space (line.take base) ≠ [] then none
  else
    let line := line.drop base
    let indent := line.length - (trimLeftOf space line).length
    match line.drop indent with
    | [] => none
    | char :: _ =>
      if 3 < indent ∨ (char ≠ backtick ∧ char ≠ tilde) then none
      else
        let rest := trimLeftOf char (line.drop indent)
        let n := line.length - indent - rest.length
        if n < 3 then none
        else if char = backtick ∧ backtick ∈ rest then none
        else some (char, n, rest)

/-- The length of the list marker that a line starts with. -/
def listMarker (line : Bytes) : Option Nat :=
  match line with
  | [] => none
  | b :: _ =>
    if b = 45 ∨ b = 43 ∨ b = 42 then some 1
    else
      let i := line.length - (line.dropWhile isDigit).length
      match line.drop i with
      | [] => none
      | c :: _ => if i = 0 ∨ 9 < i ∨ (c ≠ 46 ∧ c ≠ 41) then none else some (i + 1)

/-- The fence's character and length, and the content indentation of its list item. -/
def fenceRunInList (line : Bytes) : Option (UInt8 × Nat × Nat) :=
  let indent := line.length - (trimLeftOf space line).length
  if 3 < indent ∨ indent = line.length then none
  else
    match listMarker (line.drop indent) with
    | none => none
    | some marker =>
      let after := line.drop (indent + marker)
      let spaces := after.length - (trimLeftOf space after).length
      if spaces < 1 ∨ 4 < spaces then none
      else
        match fenceRunAt (after.drop spaces) 0 with
        | none => none
        | some (char, n, _) => some (char, n, indent + marker + spaces)

/-! ## The tracker -/

structure FenceTracker where
  char : UInt8 := 0
  length : Nat := 0
  container : Nat := 0
deriving DecidableEq

namespace FenceTracker

def inside (f : FenceTracker) : Bool := 0 < f.length

/-- A line that is indented less than the content of the list item leaves the item. -/
def leave (f : FenceTracker) (line : Bytes) : FenceTracker :=
  if 0 < f.container ∧ trimBytes line ≠ [] ∧ leadingColumns line < f.container then
    { f with length := 0, container := 0 }
  else f

/-- Whether the line opened or closed a block, and the tracker behind it. -/
def step (f : FenceTracker) (line : Bytes) : Bool × FenceTracker :=
  let f := f.leave line
  if f.length = 0 then
    match fenceRunAt line f.container with
    | some (char, n, _) => (true, { f with char := char, length := n })
    | none =>
      match fenceRunInList line with
      | some (char, n, container) => (true, ⟨char, n, container⟩)
      | none => (false, f)
  else
    match fenceRunAt line f.container with
    | none => (false, f)
    | some (char, n, after) =>
      if char = f.char ∧ f.length ≤ n ∧ trimBytes after = [] then (true, { f with length := 0 })
      else (false, f)

end FenceTracker

/-! ## Writing a block -/

/-- The longest run of backticks, with the current one and the longest of what was read. -/
def longestRun : Bytes → (current longest : Nat) → Nat
  | [], _, longest => longest
  | b :: rest, current, longest =>
    if b = backtick then longestRun rest (current + 1) (max longest (current + 1))
    else longestRun rest 0 longest

def fenceLength (text : Bytes) : Nat :=
  let longest := longestRun text 0 0
  if longest < 3 then 3 else longest + 1

def markdownFence (text : Bytes) : Bytes := List.replicate (fenceLength text) backtick

def writeMarkdownFence (text : Bytes) : Bytes :=
  markdownFence text ++ utf8 "text\n" ++ text ++
    (if text.getLast? = some newline then [] else [newline]) ++ markdownFence text ++ utf8 "\n\n"

/-! ## Runs of backticks -/

theorem le_longestRun (text : Bytes) (current longest : Nat) :
    longest ≤ longestRun text current longest := by
  induction text generalizing current longest with
  | nil => exact Nat.le_refl _
  | cons b rest ih =>
    rw [longestRun]
    split
    · exact Nat.le_trans (Nat.le_max_left _ _) (ih _ _)
    · exact ih _ _

theorem longestRun_append (a b : Bytes) (current longest : Nat) :
    ∃ current', longestRun (a ++ b) current longest =
      longestRun b current' (longestRun a current longest) := by
  induction a generalizing current longest with
  | nil => exact ⟨current, rfl⟩
  | cons c rest ih =>
    rw [cons_append, longestRun, longestRun]
    split
    · exact ih _ _
    · exact ih _ _

theorem longestRun_replicate (n : Nat) (rest : Bytes) (current longest : Nat) :
    n ≤ longestRun (List.replicate n backtick ++ rest) current longest := by
  induction n generalizing current longest with
  | zero => exact Nat.zero_le _
  | succ n ih =>
    have hgrows : ∀ k current longest, current + k ≤
        longestRun (List.replicate k backtick ++ rest) current (max longest current) := by
      intro k
      induction k with
      | zero =>
        intro current longest
        exact Nat.le_trans (Nat.le_max_right _ _) (le_longestRun _ _ _)
      | succ k ih =>
        intro current longest
        rw [replicate_succ, cons_append, longestRun, if_pos rfl]
        have := ih (current + 1) (max longest current)
        omega
    rw [replicate_succ, cons_append, longestRun, if_pos rfl]
    have := hgrows n (current + 1) longest
    omega

theorem three_le_fence (text : Bytes) : 3 ≤ fenceLength text := by
  unfold fenceLength
  dsimp only
  split
  · exact Nat.le_refl 3
  · omega

variable {n : Nat} {b : UInt8} {line : Bytes}

/-- A run of backticks in the text is shorter than its fence. -/
theorem run_lt_fence {text a b : Bytes} (h : text = a ++ List.replicate n backtick ++ b) :
    n < fenceLength text := by
  obtain ⟨current, hrun⟩ := longestRun_append a (List.replicate n backtick ++ b) 0 0
  have hle := longestRun_replicate n b current (longestRun a 0 0)
  rw [← hrun, ← append_assoc, ← h] at hle
  unfold fenceLength
  dsimp only
  split
  · omega
  · omega

/-! ## Fences at the top level -/

theorem trimLeftOf_append (b : UInt8) (l : Bytes) :
    ∃ k, l = List.replicate k b ++ trimLeftOf b l := by
  induction l with
  | nil => exact ⟨0, rfl⟩
  | cons c rest ih =>
    by_cases hc : c = b
    · subst hc
      obtain ⟨k, hk⟩ := ih
      refine ⟨k + 1, ?_⟩
      rw [trimLeftOf, dropWhile_cons_of_pos (by simp), replicate_succ, cons_append]
      exact congrArg (c :: ·) hk
    · refine ⟨0, ?_⟩
      rw [trimLeftOf, dropWhile_cons_of_neg (by simpa using hc)]
      rfl

theorem trimLeftOf_of_head {l : Bytes} (h : l.head? ≠ some b) : trimLeftOf b l = l := by
  cases l with
  | nil => rfl
  | cons c rest =>
    refine dropWhile_cons_of_neg ?_
    simpa using fun hc : c = b => h (congrArg some hc)

theorem trimLeftOf_replicate {l : Bytes} (n : Nat) (h : l.head? ≠ some b) :
    trimLeftOf b (List.replicate n b ++ l) = l := by
  induction n with
  | zero => exact trimLeftOf_of_head h
  | succ n ih =>
    rw [replicate_succ, cons_append, trimLeftOf, dropWhile_cons_of_pos (by simp)]
    exact ih

/-- A fence is a run of its character behind some spaces. -/
theorem fenceRunAt_run {after : Bytes} {char : UInt8}
    (h : fenceRunAt line 0 = some (char, n, after)) :
    ∃ k, line = List.replicate k space ++ List.replicate n char ++ after := by
  unfold fenceRunAt at h
  obtain ⟨k, hspaces⟩ := trimLeftOf_append space line
  have hindent : line.length - (trimLeftOf space line).length = k := by
    have hlength := congrArg List.length hspaces
    rw [length_append, length_replicate] at hlength
    omega
  have hdrop : line.drop k = trimLeftOf space line := by
    conv_lhs => rw [hspaces]
    rw [drop_left' length_replicate]
  split at h
  · cases h
  · dsimp only at h
    rw [drop_zero, hindent, hdrop] at h
    have hlength := congrArg List.length hspaces
    cases hfirst : trimLeftOf space line with
    | nil =>
      rw [hfirst] at h
      cases h
    | cons c more =>
      rw [hfirst] at h hlength
      dsimp only at h
      obtain ⟨m, hrun⟩ := trimLeftOf_append c (c :: more)
      have hrunLength := congrArg List.length hrun
      rw [length_append, length_replicate] at hlength hrunLength
      have hm : line.length - k - (trimLeftOf c (c :: more)).length = m := by omega
      rw [hm] at h
      split at h
      · cases h
      · split at h
        · cases h
        · split at h
          · cases h
          · cases h
            refine ⟨k, ?_⟩
            rw [append_assoc, ← hrun, ← hfirst]
            exact hspaces

/-- The first byte of a line that is neither a fence nor a fence in a list item. -/
def PlainStart (b : UInt8) : Prop :=
  b ≠ space ∧ b ≠ backtick ∧ b ≠ tilde ∧ b ≠ 45 ∧ b ≠ 43 ∧ b ≠ 42 ∧ isDigit b = false

instance (b : UInt8) : Decidable (PlainStart b) := by
  unfold PlainStart
  infer_instance

/-- A line that opens no block at the top level. -/
structure Plain (line : Bytes) : Prop where
  run : fenceRunAt line 0 = none
  list : fenceRunInList line = none

theorem Plain.nil : Plain [] := ⟨rfl, rfl⟩

theorem Plain.of_start {rest : Bytes} (h : PlainStart b) : Plain (b :: rest) := by
  obtain ⟨hspace, hbacktick, htilde, hminus, hplus, hstar, hdigit⟩ := h
  have htrim : trimLeftOf space (b :: rest) = b :: rest :=
    trimLeftOf_of_head fun hhead => hspace (Option.some.inj hhead)
  have hmarker : listMarker (b :: rest) = none := by
    unfold listMarker
    have hnone : ((b :: rest).dropWhile isDigit) = b :: rest :=
      dropWhile_cons_of_neg (by simp [hdigit])
    simp [hnone, hminus, hplus, hstar]
  constructor
  · unfold fenceRunAt
    rw [if_neg (by simp [trimLeftOf])]
    dsimp only
    rw [drop_zero, htrim, Nat.sub_self, drop_zero]
    dsimp only
    rw [if_pos (Or.inr ⟨hbacktick, htilde⟩)]
  · unfold fenceRunInList
    simp [htrim, hmarker]

namespace FenceTracker

/-- Outside of every block and list item. -/
def top (char : UInt8) : FenceTracker := ⟨char, 0, 0⟩

/-- Inside a block that was opened at the top level by `n` backticks. -/
def opened (n : Nat) : FenceTracker := ⟨backtick, n, 0⟩

@[simp] theorem inside_top (char : UInt8) : (top char).inside = false := rfl

theorem inside_opened (h : 0 < n) : (opened n).inside = true := decide_eq_true h

/-- Outside of a list item there is none to leave. -/
theorem leave_outside {f : FenceTracker} (h : f.container = 0) (line : Bytes) : f.leave line = f :=
  if_neg fun hleaves => absurd h (Nat.ne_of_gt hleaves.1)

theorem step_plain (h : Plain line) (char : UInt8) : (top char).step line = (false, top char) := by
  unfold step
  rw [leave_outside rfl]
  unfold top
  simp [h.run, h.list]

theorem fenceRunAt_backticks (hn : 3 ≤ n) (rest : Bytes) (hrest : backtick ∉ rest) :
    fenceRunAt (List.replicate n backtick ++ rest) 0 = some (backtick, n, rest) := by
  obtain ⟨m, rfl⟩ : ∃ m, n = m + 1 := ⟨n - 1, by omega⟩
  have hhead : rest.head? ≠ some backtick := fun h => hrest (mem_of_head? h)
  have hspaces : trimLeftOf space (List.replicate (m + 1) backtick ++ rest) =
      List.replicate (m + 1) backtick ++ rest :=
    trimLeftOf_of_head (by
      rw [replicate_succ]
      exact fun h => absurd (Option.some.inj h) (by decide))
  have hrun : trimLeftOf backtick (List.replicate (m + 1) backtick ++ rest) = rest :=
    trimLeftOf_replicate (m + 1) hhead
  unfold fenceRunAt
  rw [if_neg (by simp [trimLeftOf])]
  dsimp only
  rw [drop_zero, hspaces, Nat.sub_self, drop_zero]
  rw [replicate_succ, cons_append] at hrun ⊢
  dsimp only
  rw [if_neg (by simp), hrun]
  have hlength : (backtick :: (List.replicate m backtick ++ rest)).length - 0 - rest.length = m + 1 := by
    simp
    omega
  rw [hlength, if_neg (by omega), if_neg (fun h => hrest h.2)]

/-- The line that opens a block of `n` backticks. -/
theorem opening_step (hn : 3 ≤ n) (char : UInt8) :
    (top char).step (List.replicate n backtick ++ utf8 "text") = (true, opened n) := by
  have hrun := fenceRunAt_backticks hn (utf8 "text") (by decide)
  unfold step
  rw [leave_outside rfl]
  unfold top
  simp [hrun, opened]

theorem closing_step (hn : 3 ≤ n) :
    (opened n).step (List.replicate n backtick) = (true, top backtick) := by
  have hrun := fenceRunAt_backticks hn [] not_mem_nil
  rw [append_nil] at hrun
  have hblank : trimBytes [] = [] := trimBytes_of_trimmed Trimmed.nil
  unfold step
  rw [leave_outside rfl]
  unfold opened
  dsimp only
  rw [if_neg (by omega), hrun]
  simp [hblank, top]

/-- A line whose runs of backticks are shorter than the fence stays inside. -/
theorem content_step (hn : 3 ≤ n)
    (hruns : ∀ a b k, line = a ++ List.replicate k backtick ++ b → k < n) :
    (opened n).step line = (false, opened n) := by
  unfold step
  rw [leave_outside rfl]
  unfold opened
  dsimp only
  rw [if_neg (by omega)]
  cases hrun : fenceRunAt line 0 with
  | none => rfl
  | some found =>
    obtain ⟨char, k, after⟩ := found
    dsimp only
    rw [if_neg]
    intro hclosing
    obtain ⟨hchar, hlong, _⟩ := hclosing
    obtain ⟨j, hline⟩ := fenceRunAt_run hrun
    rw [hchar] at hline
    have := hruns _ _ _ hline
    omega

end FenceTracker

/-! ## Rendered blocks -/

/-- The lines of a rendered block. -/
def fencedLines (text : Bytes) : List Bytes :=
  (markdownFence text ++ utf8 "text") :: contentLines text ++ [markdownFence text]

theorem writeMarkdownFence_eq (text : Bytes) :
    writeMarkdownFence text = joinLines (fencedLines text ++ [[]]) := by
  have htext : utf8 "text\n" = utf8 "text" ++ [newline] := by decide
  have hend : utf8 "\n\n" = [newline, newline] := by decide
  unfold writeMarkdownFence fencedLines
  rw [htext, hend]
  simp only [joinLines_append, joinLines_cons, cons_append, append_assoc,
    joinLines_contentLines]
  split
  · simp [joinLines]
  · simp [joinLines]

theorem newline_not_mem_fence (text : Bytes) : newline ∉ markdownFence text := by
  intro h
  exact absurd (eq_of_mem_replicate h) (by decide)

theorem fencedLines_unbroken (text : Bytes) : Unbroken (fencedLines text) := by
  intro line hline
  unfold fencedLines at hline
  rw [cons_append, mem_cons, mem_append, mem_singleton] at hline
  rcases hline with rfl | hline | rfl
  · intro h
    rcases mem_append.mp h with h | h
    · exact newline_not_mem_fence text h
    · exact absurd h (by decide)
  · exact contentLines_unbroken text line hline
  · exact newline_not_mem_fence text

/-- No line of the text closes its block. -/
theorem content_runs {text : Bytes} (h : line ∈ contentLines text) (a b : Bytes) (k : Nat)
    (hline : line = a ++ List.replicate k backtick ++ b) : k < fenceLength text := by
  obtain ⟨before, after, hsplit⟩ := append_of_mem h
  have hjoin := joinLines_contentLines text
  rw [hsplit, joinLines_append, joinLines_cons, hline] at hjoin
  by_cases hended : text.getLast? = some newline
  · rw [if_pos hended] at hjoin
    refine run_lt_fence (a := joinLines before ++ a) (b := b ++ newline :: joinLines after) ?_
    rw [← hjoin]
    simp only [append_assoc]
  · rw [if_neg hended] at hjoin
    -- the newline that was put behind the text is not inside the run
    rcases joinLines_ends after with hnil | ⟨rest, hrest⟩
    · rw [hnil] at hjoin
      refine run_lt_fence (a := joinLines before ++ a) (b := b) ?_
      refine append_cancel_right (?_ : _ ++ [newline] = _ ++ [newline])
      rw [← hjoin]
      simp only [append_assoc, cons_append, nil_append]
    · rw [hrest] at hjoin
      refine run_lt_fence (a := joinLines before ++ a) (b := b ++ newline :: rest) ?_
      refine append_cancel_right (?_ : _ ++ [newline] = _ ++ [newline])
      rw [← hjoin]
      simp only [append_assoc, cons_append]

end Evener.Contextmgr
