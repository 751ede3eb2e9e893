/-
  Words for a POSIX shell, and how the shell reads them back.

  The reader is word splitting and quote removal as POSIX has them, on the characters that the
  words use; whatever else the shell would give a meaning to is a misreading.
-/
import Evener.Lib.Lines

namespace Evener.Shellquote

open Evener.Lib List

def space : UInt8 := 32
def singleQuote : UInt8 := 39
def backslash : UInt8 := 92
def tilde : UInt8 := 126

/-! ## Rendering -/

/-- The allow-list. -/
def safeByte (allowTilde : Bool) (c : UInt8) : Bool :=
  (97 ≤ c && c ≤ 122) || (65 ≤ c && c ≤ 90) || (48 ≤ c && c ≤ 57) ||
    c ∈ [95, 45, 46, 47, 58, 44, 64, 37, 43, 61, 94] || (c = tilde && allowTilde) || 0x80 ≤ c

def isSafeWord (s : Bytes) (allowTilde : Bool) : Bool := s ≠ [] && s.all (safeByte allowTilde)

/-- `strings.ReplaceAll(s, "'", "'\\''")`. -/
def spliceQuotes (s : Bytes) : Bytes :=
  s.flatMap fun c =>
    if c = singleQuote then [singleQuote, backslash, singleQuote, singleQuote] else [c]

def quote (s : Bytes) (allowTilde : Bool) : Bytes :=
  if s = [] then [singleQuote, singleQuote]
  else if isSafeWord s allowTilde then s
  else singleQuote :: (spliceQuotes s ++ [singleQuote])

def literal (s : Bytes) : Bytes := quote s false

def remoteWord (s : Bytes) : Bytes := quote s true

def args : List Bytes → Bytes
  | [] => []
  | a :: rest => literal a ++ rest.flatMap fun a => space :: literal a

/-! ## Reading -/

inductive Misreading where
  | metacharacter
  | tildeExpansion
  | unterminated
deriving DecidableEq

/-- Space, tab and newline. -/
def separators : Bytes := [32, 9, 10]

/-- `| & ; < > ( ) $ `, the backquote and the double quote, and `* ? [ ] # ! { }`. -/
def metacharacters : Bytes :=
  [124, 38, 59, 60, 62, 40, 41, 36, 96, 34, 42, 63, 91, 93, 35, 33, 123, 125]

/-- Where the shell stands; the word read so far, if one has begun. -/
inductive Mode where
  | unquoted (word : Option Bytes)
  | quoted (word : Bytes)
  | escaped (word : Bytes)
deriving DecidableEq

/-- One byte: where the shell stands behind it, and the word that ends there. -/
def step : Mode → UInt8 → Except Misreading (Mode × List Bytes)
  | .unquoted word, c =>
    if c ∈ separators then .ok (.unquoted none, word.toList)
    else if c = backslash then .ok (.escaped (word.getD []), [])
    else if c = singleQuote then .ok (.quoted (word.getD []), [])
    else if c = tilde ∧ word = none then .error .tildeExpansion
    else if c ∈ metacharacters then .error .metacharacter
    else .ok (.unquoted (some (word.getD [] ++ [c])), [])
  | .quoted word, c =>
    if c = singleQuote then .ok (.unquoted (some word), []) else .ok (.quoted (word ++ [c]), [])
  | .escaped word, c => .ok (.unquoted (some (word ++ [c])), [])

def run : Mode → Bytes → Except Misreading (Mode × List Bytes)
  | mode, [] => .ok (mode, [])
  | mode, c :: line => do
    let (mode, words) ← step mode c
    let (mode, words') ← run mode line
    return (mode, words ++ words')

/-- The words of a line. -/
def readWords (line : Bytes) : Except Misreading (List Bytes) := do
  let (mode, words) ← run (.unquoted none) line
  match mode with
  | .unquoted word => return words ++ word.toList
  | _ => .error .unterminated

/-! ## Reading back -/

theorem run_cons {mode mode' mode'' : Mode} {c : UInt8} {line : Bytes} {words words' : List Bytes}
    (hstep : step mode c = .ok (mode', words)) (hrest : run mode' line = .ok (mode'', words')) :
    run mode (c :: line) = .ok (mode'', words ++ words') := by
  unfold run
  rw [hstep]
  show (run mode' line >>= fun r => pure (r.1, words ++ r.2)) = _
  rw [hrest]
  rfl

theorem run_append {mode mode' mode'' : Mode} {line line' : Bytes} {words words' : List Bytes}
    (hfirst : run mode line = .ok (mode', words)) (hrest : run mode' line' = .ok (mode'', words')) :
    run mode (line ++ line') = .ok (mode'', words ++ words') := by
  induction line generalizing mode words with
  | nil =>
    cases hfirst
    exact hrest
  | cons c line ih =>
    unfold run at hfirst
    cases hstep : step mode c with
    | error err =>
      rw [hstep] at hfirst
      cases hfirst
    | ok r =>
      rw [hstep] at hfirst
      cases hline : run r.1 line with
      | error err =>
        have hbad : (run r.1 line >>= fun r' => pure (r'.1, r.2 ++ r'.2)) =
          Except.ok (mode', words) := hfirst
        rw [hline] at hbad
        cases hbad
      | ok r' =>
        have hok : (run r.1 line >>= fun r' => pure (r'.1, r.2 ++ r'.2)) =
          Except.ok (mode', words) := hfirst
        rw [hline] at hok
        cases hok
        rw [append_assoc]
        exact run_cons hstep (ih hline)

/-- Nothing the shell gives a meaning to is on the allow-list. -/
theorem safe_special : ∀ c ∈ separators ++ metacharacters ++ [backslash, singleQuote],
    ∀ allowTilde, safeByte allowTilde c = false := by
  have hall : (separators ++ metacharacters ++ [backslash, singleQuote]).all
      (fun c => safeByte true c == false && safeByte false c == false) = true := by decide
  intro c hc allowTilde
  have hboth := all_eq_true.mp hall c hc
  rw [Bool.and_eq_true, beq_iff_eq, beq_iff_eq] at hboth
  cases allowTilde with
  | true => exact hboth.1
  | false => exact hboth.2

variable {allowTilde : Bool} {s : Bytes}

theorem step_safe {c : UInt8} (hc : safeByte allowTilde c = true) {word : Option Bytes}
    (htilde : ¬(c = tilde ∧ word = none)) :
    step (.unquoted word) c = .ok (.unquoted (some (word.getD [] ++ [c])), []) := by
  have hspecial : c ∉ separators ++ metacharacters ++ [backslash, singleQuote] := by
    intro hmem
    rw [safe_special c hmem allowTilde] at hc
    cases hc
  simp only [mem_append, mem_cons, not_mem_nil, or_false, not_or] at hspecial
  obtain ⟨⟨hseparator, hmeta⟩, hbackslash, hquote⟩ := hspecial
  unfold step
  dsimp only
  rw [if_neg hseparator, if_neg hbackslash, if_neg hquote, if_neg htilde, if_neg hmeta]

theorem run_safe (hs : s.all (safeByte allowTilde) = true) (word : Bytes) :
    run (.unquoted (some word)) s = .ok (.unquoted (some (word ++ s)), []) := by
  induction s generalizing word with
  | nil =>
    rw [append_nil]
    rfl
  | cons c s ih =>
    rw [all_cons, Bool.and_eq_true] at hs
    have hbegun : ¬(c = tilde ∧ some word = none) := fun h => Option.some_ne_none word h.2
    have hstep := step_safe hs.1 hbegun
    have hrest := ih hs.2 (word ++ [c])
    rw [append_assoc] at hrest
    exact run_cons hstep hrest

theorem run_splice (s word : Bytes) :
    run (.quoted word) (spliceQuotes s) = .ok (.quoted (word ++ s), []) := by
  induction s generalizing word with
  | nil =>
    rw [append_nil]
    rfl
  | cons c s ih =>
    have hrest := ih (word ++ [c])
    rw [append_assoc] at hrest
    unfold spliceQuotes
    rw [flatMap_cons]
    by_cases hc : c = singleQuote
    · subst hc
      rw [if_pos rfl]
      have hsplice : run (.quoted word) [singleQuote, backslash, singleQuote, singleQuote] =
          .ok (.quoted (word ++ [singleQuote]), []) := rfl
      exact run_append hsplice hrest
    · rw [if_neg hc]
      have hstep : step (.quoted word) c = .ok (.quoted (word ++ [c]), []) := if_neg hc
      have hbyte : run (.quoted word) [c] = .ok (.quoted (word ++ [c]), []) := run_cons hstep rfl
      exact run_append hbyte hrest

/-- A rendered word is read back as the word, unless its tilde is left to expand. -/
theorem run_quote (htilde : allowTilde = true → s.head? ≠ some tilde) :
    run (.unquoted none) (quote s allowTilde) = .ok (.unquoted (some s), []) := by
  unfold quote
  by_cases hnil : s = []
  · subst hnil
    rfl
  · rw [if_neg hnil]
    by_cases hsafe : isSafeWord s allowTilde = true
    · rw [if_pos hsafe]
      unfold isSafeWord at hsafe
      rw [Bool.and_eq_true] at hsafe
      obtain ⟨c, s, rfl⟩ := exists_cons_of_ne_nil hnil
      have hall := hsafe.2
      rw [all_cons, Bool.and_eq_true] at hall
      have hstart : ¬(c = tilde ∧ (none : Option Bytes) = none) := by
        rintro ⟨rfl, _⟩
        cases allowTilde with
        | true => exact htilde rfl rfl
        | false => exact absurd hall.1 (by decide)
      exact run_cons (step_safe hall.1 hstart) (run_safe hall.2 [c])
    · rw [if_neg hsafe]
      have hopen : step (.unquoted none) singleQuote = .ok (.quoted [], []) := rfl
      refine run_cons hopen ?_
      have hclose : run (.quoted ([] ++ s)) [singleQuote] = .ok (.unquoted (some s), []) := rfl
      exact run_append (run_splice s []) hclose

theorem readWords_quote (htilde : allowTilde = true → s.head? ≠ some tilde) :
    readWords (quote s allowTilde) = .ok [s] := by
  unfold readWords
  rw [run_quote htilde]
  rfl

theorem run_literal (s : Bytes) : run (.unquoted none) (literal s) = .ok (.unquoted (some s), []) :=
  run_quote fun h => Bool.noConfusion h

/-- Each further argument ends the word before it. -/
theorem run_rest (rest : List Bytes) (word : Bytes) :
    ∃ words last, run (.unquoted (some word)) (rest.flatMap fun a => space :: literal a) =
      .ok (.unquoted (some last), words) ∧ words ++ [last] = word :: rest := by
  induction rest generalizing word with
  | nil => exact ⟨[], word, rfl, rfl⟩
  | cons a rest ih =>
    obtain ⟨words, last, hrun, hwords⟩ := ih a
    refine ⟨word :: words, last, ?_, by rw [cons_append, hwords]⟩
    rw [flatMap_cons]
    have hspace : step (.unquoted (some word)) space = .ok (.unquoted none, [word]) := rfl
    exact run_append (run_cons hspace (run_literal a)) hrun

theorem readWords_args (words : List Bytes) : readWords (args words) = .ok words := by
  cases words with
  | nil => rfl
  | cons a rest =>
    obtain ⟨words, last, hrun, hwords⟩ := run_rest rest a
    unfold readWords args
    rw [run_append (run_literal a) hrun]
    show Except.ok (([] ++ words) ++ [last]) = _
    rw [nil_append, hwords]

theorem literal_injective : Function.Injective literal := by
  intro s t h
  have hs : readWords (literal s) = .ok [s] := readWords_quote fun h => Bool.noConfusion h
  have ht : readWords (literal t) = .ok [t] := readWords_quote fun h => Bool.noConfusion h
  rw [h, ht] at hs
  cases hs
  rfl

/-- The shell undoes the quoting. -/
theorem shell_undoes_quoting :
    (∀ words, readWords (args words) = .ok words) ∧
      (∀ s : Bytes, s.head? ≠ some tilde → readWords (remoteWord s) = .ok [s]) ∧
      Function.Injective literal :=
  ⟨readWords_args, fun _ h => readWords_quote fun _ => h, literal_injective⟩

theorem shell_undoes_quote : readWords (remoteWord [39, 126]) = .ok [[39, 126]] :=
  shell_undoes_quoting.2.1 [39, 126] (by decide)

end Evener.Shellquote
