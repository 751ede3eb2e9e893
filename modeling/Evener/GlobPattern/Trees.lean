/-
  Pattern trees: what a glob pattern with braces stands for, apart from how it is scanned.

  A tree has one text, and the scanners cut that text into the tree's own steps. Its meaning is the
  list of texts without groups that one choice in every kept group leads to.
-/
import Evener.GlobPattern.Expand

namespace Evener.GlobPattern

open List
open Evener.Lib (Bytes)

/-- A byte of a character class. -/
inductive ClassItem where
  | byte (b : UInt8) (h : b ≠ backslash ∧ b ≠ closeBracket)
  | escaped (b : UInt8)

/-- What stands in a pattern by itself. -/
inductive Atom where
  | byte (b : UInt8)
      (h : b ≠ backslash ∧ b ≠ openBracket ∧ b ≠ openBrace ∧ b ≠ closeBrace)
  | escaped (b : UInt8)
  | charClass (items : List ClassItem)

mutual

inductive Pattern where
  | nil
  | atom (a : Atom) (rest : Pattern)
  | group (first : Pattern) (others : Alternatives) (rest : Pattern)

/-- The alternatives of a group behind its first one. -/
inductive Alternatives where
  | nil
  | cons (alternative : Pattern) (rest : Alternatives)

end

/-! ## Texts -/

def ClassItem.text : ClassItem → Bytes
  | .byte b _ => [b]
  | .escaped b => [backslash, b]

def Atom.text : Atom → Bytes
  | .byte b _ => [b]
  | .escaped b => [backslash, b]
  | .charClass items => openBracket :: (items.flatMap ClassItem.text ++ [closeBracket])

mutual

def Pattern.tokens : Pattern → List Bytes
  | .nil => []
  | .atom a rest => a.text :: rest.tokens
  | .group first others rest =>
    [openBrace] :: (first.tokens ++ others.tokens ++ [closeBrace] :: rest.tokens)

def Alternatives.tokens : Alternatives → List Bytes
  | .nil => []
  | .cons p rest => [comma] :: (p.tokens ++ rest.tokens)

end

def Pattern.text (p : Pattern) : Bytes := p.tokens.flatten

def Alternatives.text (ps : Alternatives) : Bytes := ps.tokens.flatten

/-! ## Trees -/

mutual

/-- A plain comma stands outside the groups only. -/
def Pattern.Fits : Bool → Pattern → Prop
  | _, .nil => True
  | inside, .atom a rest => (inside → a.text ≠ [comma]) ∧ rest.Fits inside
  | inside, .group first others rest => first.Fits true ∧ others.Fits ∧ rest.Fits inside

def Alternatives.Fits : Alternatives → Prop
  | .nil => True
  | .cons p rest => p.Fits true ∧ rest.Fits

end

structure PatternTree where
  root : Pattern
  fits : root.Fits false

def PatternTree.text (t : PatternTree) : Bytes := t.root.text

/-! ## Meaning -/

mutual

/-- One text for each way to choose. -/
def Pattern.meaning : Pattern → List Bytes
  | .nil => [[]]
  | .atom a rest => rest.meaning.map (a.text ++ ·)
  | .group first others rest =>
    (first.meaning ++ others.meaning).flatMap fun chosen => rest.meaning.map (chosen ++ ·)

def Alternatives.meaning : Alternatives → List Bytes
  | .nil => []
  | .cons p rest => p.meaning ++ rest.meaning

end

def PatternTree.meaning (t : PatternTree) : List Bytes := t.root.meaning

/-! ## Sizes -/

def Alternatives.count : Alternatives → Nat
  | .nil => 0
  | .cons _ rest => rest.count + 1

mutual

def Pattern.groups : Pattern → Nat
  | .nil => 0
  | .atom _ rest => rest.groups
  | .group first others rest => first.groups + others.groups + rest.groups + 1

def Alternatives.groups : Alternatives → Nat
  | .nil => 0
  | .cons p rest => p.groups + rest.groups

end

mutual

/-- The product of the numbers of alternatives over all groups, nested ones included. -/
def Pattern.spread : Pattern → Nat
  | .nil => 1
  | .atom _ rest => rest.spread
  | .group first others rest =>
    (others.count + 1) * (first.spread * others.spread) * rest.spread

def Alternatives.spread : Alternatives → Nat
  | .nil => 1
  | .cons p rest => p.spread * rest.spread

end

def PatternTree.groups (t : PatternTree) : Nat := t.root.groups

def PatternTree.spread (t : PatternTree) : Nat := t.root.spread

/-! ## The text of a tree has the tree's steps -/

theorem lexemesFrom_classItems (items : List ClassItem) (step rest : Bytes) :
    lexemesFrom .inClass step (items.flatMap ClassItem.text ++ rest) =
      lexemesFrom .inClass (step ++ items.flatMap ClassItem.text) rest := by
  induction items generalizing step with
  | nil => simp
  | cons item items ih =>
    cases item with
    | byte b h =>
      simp only [flatMap_cons, ClassItem.text, cons_append, nil_append, lexemesFrom,
        if_neg h.1, if_neg h.2]
      rw [ih, append_assoc]
      rfl
    | escaped b =>
      simp only [flatMap_cons, ClassItem.text, cons_append, nil_append, lexemesFrom,
        if_true]
      rw [ih]
      simp [append_assoc]

/-- A text is one step of any scan. -/
def Whole (l : Bytes) : Prop :=
  ∀ rest, lexemesFrom .between [] (l ++ rest) = l :: lexemesFrom .between [] rest

theorem Atom.whole (a : Atom) : Whole a.text := by
  intro rest
  cases a with
  | byte b h =>
    simp [Atom.text, lexemesFrom, h.1, h.2.1]
  | escaped b => simp [Atom.text, lexemesFrom]
  | charClass items =>
    have hne : ¬ openBracket = backslash := by decide
    have hclose : ¬ closeBracket = backslash := by decide
    simp only [Atom.text, cons_append, append_assoc, lexemesFrom, if_neg hne, if_true]
    rw [lexemesFrom_classItems]
    simp [lexemesFrom, hclose]

theorem whole_single {b : UInt8} (hescape : b ≠ backslash) (hclass : b ≠ openBracket) :
    Whole [b] := by
  intro rest
  simp [lexemesFrom, hescape, hclass]

mutual

theorem Pattern.whole_of_mem : ∀ (p : Pattern), ∀ l ∈ p.tokens, Whole l
  | .nil => by simp [Pattern.tokens]
  | .atom a rest => by
    intro l hl
    rcases mem_cons.mp hl with rfl | hl
    · exact a.whole
    · exact rest.whole_of_mem l hl
  | .group first others rest => by
    intro l hl
    simp only [Pattern.tokens, mem_cons, mem_append] at hl
    rcases hl with rfl | (hl | hl) | rfl | hl
    · exact whole_single (by decide) (by decide)
    · exact first.whole_of_mem l hl
    · exact others.whole_of_mem l hl
    · exact whole_single (by decide) (by decide)
    · exact rest.whole_of_mem l hl

theorem Alternatives.whole_of_mem : ∀ (ps : Alternatives), ∀ l ∈ ps.tokens, Whole l
  | .nil => by simp [Alternatives.tokens]
  | .cons p rest => by
    intro l hl
    simp only [Alternatives.tokens, mem_cons, mem_append] at hl
    rcases hl with rfl | hl | hl
    · exact whole_single (by decide) (by decide)
    · exact p.whole_of_mem l hl
    · exact rest.whole_of_mem l hl

end

theorem lexemesFrom_flatten {ls : List Bytes} (h : ∀ l ∈ ls, Whole l) (rest : Bytes) :
    lexemesFrom .between [] (ls.flatten ++ rest) = ls ++ lexemesFrom .between [] rest := by
  induction ls with
  | nil => rfl
  | cons l ls ih =>
    rw [flatten_cons, append_assoc, h l mem_cons_self,
      ih fun l hl => h l (mem_cons_of_mem _ hl), cons_append]

theorem lexemes_flatten {ls : List Bytes} (h : ∀ l ∈ ls, Whole l) : lexemes ls.flatten = ls := by
  have hrun := lexemesFrom_flatten h []
  simpa [lexemes, lexemesFrom] using hrun

theorem Pattern.lexemes_text (p : Pattern) : lexemes p.text = p.tokens :=
  lexemes_flatten p.whole_of_mem

end Evener.GlobPattern
