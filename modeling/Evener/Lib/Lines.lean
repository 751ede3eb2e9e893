/-
  Bytes as newline-terminated lines and an unterminated tail.

  A prefix that ends with a line can be split off (`splitLines_append`), so a reader that has
  consumed whole lines continues where it stopped.
-/
import Mathlib.Data.List.Infix
import Mathlib.Algebra.GroupWithZero.Nat
import Mathlib.Algebra.Ring.Int.Defs

namespace Evener.Lib

open List

abbrev Bytes := List UInt8

instance : LawfulBEq Bytes := inferInstanceAs (LawfulBEq (List UInt8))

def newline : UInt8 := 10

/-- The terminated lines, without their terminators, and the bytes after the last newline. -/
@[grind] def splitLines : Bytes → List Bytes × Bytes
  | [] => ([], [])
  | b :: bytes =>
    let rest := splitLines bytes
    if b = newline then ([] :: rest.1, rest.2)
    else match rest.1 with
      | [] => ([], b :: rest.2)
      | line :: lines => ((b :: line) :: lines, rest.2)

/-- The lines with their terminators, one after the other. -/
def joinLines (lines : List Bytes) : Bytes := (lines.map (· ++ [newline])).flatten

theorem splitLines_append {p : Bytes} (h : (splitLines p).2 = []) (q : Bytes) :
    splitLines (p ++ q) = ((splitLines p).1 ++ (splitLines q).1, (splitLines q).2) := by
  induction p with
  | nil => rfl
  | cons b p ih =>
    rw [cons_append, splitLines, splitLines]
    rw [splitLines] at h
    by_cases hb : b = newline
    · simp only [hb, if_true] at h ⊢
      rw [ih h]
      rfl
    · simp only [hb, if_false] at h ⊢
      cases hlines : (splitLines p).1 with
      | nil =>
        rw [hlines] at h
        exact absurd h (cons_ne_nil _ _)
      | cons line lines =>
        rw [hlines] at h
        rw [ih h, hlines]
        rfl

/-- A newline ends the tail. -/
theorem splitLines_newline (p : Bytes) :
    splitLines (p ++ [newline]) = ((splitLines p).1 ++ [(splitLines p).2], []) := by
  induction p with
  | nil => simp [splitLines]
  | cons b p ih =>
    rw [cons_append, splitLines, splitLines, ih]
    by_cases hb : b = newline
    · simp [hb]
    · simp only [hb, if_false]
      cases hlines : (splitLines p).1 with
      | nil => rfl
      | cons line lines => rfl

theorem join_splitLines (p : Bytes) : joinLines (splitLines p).1 ++ (splitLines p).2 = p := by
  induction p with
  | nil => rfl
  | cons b p ih =>
    rw [splitLines]
    by_cases hb : b = newline
    · simp only [hb, if_true]
      show newline :: (joinLines (splitLines p).1 ++ (splitLines p).2) = newline :: p
      rw [ih]
    · simp only [hb, if_false]
      cases hlines : (splitLines p).1 with
      | nil =>
        rw [hlines] at ih
        simpa [joinLines] using ih
      | cons line lines =>
        rw [hlines] at ih
        simpa [joinLines] using ih

theorem splitLines_of_not_mem {l : Bytes} (h : newline ∉ l) : splitLines l = ([], l) := by
  induction l with
  | nil => rfl
  | cons b l ih =>
    have hb : b ≠ newline := fun hb => h (hb ▸ mem_cons_self)
    rw [splitLines, ih fun hmem => h (mem_cons_of_mem _ hmem)]
    simp [hb]

/-- Lines that hold no newline are split as they are. -/
theorem splitLines_join {lines : List Bytes} (h : ∀ line ∈ lines, newline ∉ line) :
    splitLines (joinLines lines) = (lines, []) := by
  induction lines with
  | nil => rfl
  | cons line lines ih =>
    have hfirst : splitLines (line ++ [newline]) = ([line], []) := by
      rw [splitLines_newline, splitLines_of_not_mem (h line mem_cons_self)]
      rfl
    have hrest := ih fun l hl => h l (mem_cons_of_mem _ hl)
    have hjoin : joinLines (line :: lines) = (line ++ [newline]) ++ joinLines lines := by
      simp [joinLines]
    rw [hjoin, splitLines_append (by rw [hfirst]), hfirst, hrest]
    rfl

theorem newline_not_mem_line (p : Bytes) : ∀ line ∈ (splitLines p).1, newline ∉ line := by
  induction p with
  | nil => exact fun _ h => absurd h not_mem_nil
  | cons b p ih =>
    rw [splitLines]
    by_cases hb : b = newline
    · simp only [hb, if_true]
      intro line hline
      rcases mem_cons.mp hline with rfl | hline
      · exact not_mem_nil
      · exact ih line hline
    · simp only [hb, if_false]
      cases hlines : (splitLines p).1 with
      | nil => exact fun _ h => absurd h not_mem_nil
      | cons first lines =>
        rw [hlines] at ih
        intro line hline
        rcases mem_cons.mp hline with rfl | hline
        · intro hmem
          rcases mem_cons.mp hmem with heq | hmem
          · exact hb heq.symm
          · exact ih first mem_cons_self hmem
        · exact ih line (mem_cons_of_mem _ hline)

theorem newline_not_mem_tail (p : Bytes) : newline ∉ (splitLines p).2 := by
  induction p with
  | nil => exact not_mem_nil
  | cons b p ih =>
    rw [splitLines]
    by_cases hb : b = newline
    · simpa only [hb, if_true] using ih
    · simp only [hb, if_false]
      cases (splitLines p).1 with
      | nil =>
        intro hmem
        rcases mem_cons.mp hmem with heq | hmem
        · exact hb heq.symm
        · exact ih hmem
      | cons first lines => exact ih

/-- The part of `p` up to its last newline. -/
theorem splitLines_complete (p : Bytes) :
    splitLines (joinLines (splitLines p).1) = ((splitLines p).1, []) :=
  splitLines_join (newline_not_mem_line p)

/-- Bytes without a newline make the tail longer. -/
theorem splitLines_append_tail (p : Bytes) {more : Bytes} (h : newline ∉ more) :
    splitLines (p ++ more) = ((splitLines p).1, (splitLines p).2 ++ more) := by
  have hcomplete := splitLines_complete p
  have hline : newline ∉ (splitLines p).2 ++ more := by
    rw [mem_append]
    exact fun hmem => hmem.elim (newline_not_mem_tail p) h
  calc splitLines (p ++ more)
      = splitLines (joinLines (splitLines p).1 ++ ((splitLines p).2 ++ more)) := by
        rw [← append_assoc, join_splitLines]
    _ = ((splitLines p).1, (splitLines p).2 ++ more) := by
        rw [splitLines_append (congrArg Prod.snd hcomplete), hcomplete,
          splitLines_of_not_mem hline, append_nil]

theorem splitLines_line {line : Bytes} (h : newline ∉ line) :
    splitLines (line ++ [newline]) = ([line], []) := by
  have hlines : ∀ l ∈ [line], newline ∉ l := by simpa using h
  simpa [joinLines] using splitLines_join hlines

/-- Bytes whose last one is a newline have no tail. -/
theorem tail_of_getLast {p : Bytes} (h : p.getLast? = some newline) : (splitLines p).2 = [] := by
  obtain ⟨q, rfl⟩ := getLast?_eq_some_iff.mp h
  rw [splitLines_newline]

/-- A terminated part and a tail without a newline are what the split finds. -/
theorem splitLines_base {base tail : Bytes} (hbase : base.getLast? = some newline)
    (htail : newline ∉ tail) :
    splitLines (base ++ tail) = ((splitLines base).1, tail) ∧ joinLines (splitLines base).1 = base ∧
      (splitLines base).1 ≠ [] := by
  have hended := tail_of_getLast hbase
  have hjoin := join_splitLines base
  rw [hended, append_nil] at hjoin
  refine ⟨?_, hjoin, fun hnone => ?_⟩
  · rw [splitLines_append hended, splitLines_of_not_mem htail, append_nil]
  · rw [hnone] at hjoin
    rw [← hjoin] at hbase
    cases hbase

/-- A prefix of a terminated line is the whole of it, or holds no newline. -/
theorem take_line {line : Bytes} (h : newline ∉ line) (n : Nat) :
    (line ++ [newline]).take n = line ++ [newline] ∨ newline ∉ (line ++ [newline]).take n := by
  by_cases hn : n ≤ line.length
  · right
    rw [take_append_of_le_length hn]
    exact fun hmem => h (mem_of_mem_take hmem)
  · left
    refine take_of_length_le ?_
    rw [length_append, length_singleton]
    omega

/-- A prefix of two pieces stops in the first, or holds it and stops in the second. -/
theorem prefix_append_cases {α : Type} {part p q : List α} (h : part <+: p ++ q) :
    part <+: p ∨ ∃ more, part = p ++ more ∧ more <+: q := by
  by_cases hlength : part.length ≤ p.length
  · exact Or.inl (prefix_of_prefix_length_le h (prefix_append p q) hlength)
  · obtain ⟨more, rfl⟩ := prefix_of_prefix_length_le (prefix_append p q) h (by omega)
    exact Or.inr ⟨more, rfl, (prefix_append_right_inj p).mp h⟩

/-- The bytes through the last newline. -/
def completeLines (p : Bytes) : Bytes := joinLines (splitLines p).1

theorem prefix_completeLines (p : Bytes) : completeLines p <+: p :=
  ⟨(splitLines p).2, join_splitLines p⟩

theorem take_completeLines (p : Bytes) : p.take (completeLines p).length = completeLines p := by
  obtain ⟨tail, htail⟩ := prefix_completeLines p
  have htake : (completeLines p ++ tail).take (completeLines p).length = completeLines p :=
    take_left
  rwa [htail] at htake

theorem completeLines_idem (p : Bytes) : completeLines (completeLines p) = completeLines p := by
  unfold completeLines
  rw [splitLines_complete]

theorem completeLines_mono {p q : Bytes} (h : p <+: q) : completeLines p <+: completeLines q := by
  obtain ⟨suffix, rfl⟩ := h
  have hcomplete := splitLines_complete p
  have hsplit := splitLines_append (congrArg Prod.snd hcomplete) ((splitLines p).2 ++ suffix)
  rw [← append_assoc, join_splitLines, hcomplete] at hsplit
  unfold completeLines
  rw [hsplit]
  unfold joinLines
  rw [map_append, flatten_append]
  exact prefix_append _ _

end Evener.Lib
