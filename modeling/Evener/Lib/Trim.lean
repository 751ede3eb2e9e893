/-
  Trimming marks from the ends of a list, and white space from the ends of a text in UTF-8.

  When no mark begins another one, what is left is found by any way of taking marks off.
-/
import Evener.Lib.Lines

namespace Evener.Lib

open List

/-! ## Marks -/

section Marks

variable {α : Type} [DecidableEq α]

/-- What is behind a mark that the list begins with. -/
def dropMark (marks : List (List α)) (l : List α) : Option (List α) :=
  (marks.find? fun m => m.isPrefixOf l).map fun m => l.drop m.length

/-- Take up to `n` marks off the front. -/
def trimMarks (marks : List (List α)) : Nat → List α → List α
  | 0, l => l
  | n + 1, l =>
    match dropMark marks l with
    | some rest => trimMarks marks n rest
    | none => l

variable {marks : List (List α)}

theorem dropMark_some {l rest : List α} (h : dropMark marks l = some rest) :
    ∃ m ∈ marks, l = m ++ rest := by
  obtain ⟨m, hm, rfl⟩ := Option.map_eq_some_iff.mp h
  have hpre := find?_some hm
  obtain ⟨t, rfl⟩ := isPrefixOf_iff_prefix.mp hpre
  exact ⟨m, mem_of_find?_eq_some hm, by rw [drop_left]⟩

theorem dropMark_none {l : List α} :
    dropMark marks l = none ↔ ∀ m ∈ marks, ¬ m <+: l := by
  unfold dropMark
  rw [Option.map_eq_none_iff, find?_eq_none]
  simp only [ isPrefixOf_iff_prefix]

/-- No mark begins another one, and none is empty. -/
structure Apart (marks : List (List α)) : Prop where
  nonempty : ∀ m ∈ marks, m ≠ []
  alone : ∀ m ∈ marks, ∀ m' ∈ marks, m <+: m' → m = m'

theorem dropMark_append (h : Apart marks) {m : List α} (hm : m ∈ marks) (l : List α) :
    dropMark marks (m ++ l) = some l := by
  cases hdrop : dropMark marks (m ++ l) with
  | none => exact absurd (prefix_append m l) (dropMark_none.mp hdrop m hm)
  | some rest =>
    obtain ⟨m', hm', heq⟩ := dropMark_some hdrop
    have hsame : m = m' := by
      have hpre : m' <+: m ++ l := ⟨rest, heq.symm⟩
      rcases prefix_or_prefix_of_prefix (prefix_append m l) hpre with hpre | hpre
      · exact h.alone m hm m' hm' hpre
      · exact (h.alone m' hm' m hm hpre).symm
    rw [← hsame] at heq
    rw [append_cancel_left heq]

/-- The front of the list is marks, and what is left begins with none. -/
theorem trimMarks_spec (h : Apart marks) (n : Nat) (l : List α) (hn : l.length ≤ n) :
    ∃ taken : List (List α), (∀ m ∈ taken, m ∈ marks) ∧ l = taken.flatten ++ trimMarks marks n l ∧
      dropMark marks (trimMarks marks n l) = none := by
  induction n generalizing l with
  | zero =>
    rw [length_eq_zero_iff.mp (Nat.le_zero.mp hn)]
    refine ⟨[], fun _ hm => absurd hm not_mem_nil, rfl, dropMark_none.mpr fun m hm hpre => ?_⟩
    exact h.nonempty m hm (prefix_nil.mp hpre)
  | succ n ih =>
    rw [trimMarks]
    cases hdrop : dropMark marks l with
    | none => exact ⟨[], fun _ hm => absurd hm not_mem_nil, rfl, hdrop⟩
    | some rest =>
      obtain ⟨m, hm, rfl⟩ := dropMark_some hdrop
      have hpos := length_pos_iff.mpr (h.nonempty m hm)
      rw [length_append] at hn
      obtain ⟨taken, htaken, hrest, hnone⟩ := ih rest (by omega)
      refine ⟨m :: taken, fun x hx => ?_, ?_, hnone⟩
      · rcases mem_cons.mp hx with rfl | hx
        · exact hm
        · exact htaken x hx
      · rw [flatten_cons, append_assoc]
        exact congrArg (m ++ ·) hrest

theorem trimMarks_unique (h : Apart marks) (n : Nat) (taken : List (List α)) (rest : List α)
    (htaken : ∀ m ∈ taken, m ∈ marks) (hrest : dropMark marks rest = none)
    (hn : taken.flatten.length ≤ n) : trimMarks marks n (taken.flatten ++ rest) = rest := by
  induction taken generalizing n with
  | nil =>
    cases n with
    | zero => rfl
    | succ n =>
      show trimMarks marks (n + 1) rest = rest
      rw [trimMarks, hrest]
  | cons m taken ih =>
    have hm := htaken m mem_cons_self
    have hpos := length_pos_iff.mpr (h.nonempty m hm)
    rw [flatten_cons, length_append] at hn
    cases n with
    | zero => omega
    | succ n =>
      rw [flatten_cons, append_assoc, trimMarks, dropMark_append h hm]
      exact ih n (fun x hx => htaken x (mem_cons_of_mem _ hx)) (by omega)

end Marks

/-! ## White space -/

/-- `unicode.IsSpace`, in UTF-8. -/
def whiteSpace : List Bytes :=
  [[9], [10], [11], [12], [13], [32], [0xC2, 0x85], [0xC2, 0xA0], [0xE1, 0x9A, 0x80],
    [0xE2, 0x80, 0x80], [0xE2, 0x80, 0x81], [0xE2, 0x80, 0x82], [0xE2, 0x80, 0x83],
    [0xE2, 0x80, 0x84], [0xE2, 0x80, 0x85], [0xE2, 0x80, 0x86], [0xE2, 0x80, 0x87],
    [0xE2, 0x80, 0x88], [0xE2, 0x80, 0x89], [0xE2, 0x80, 0x8A], [0xE2, 0x80, 0xA8],
    [0xE2, 0x80, 0xA9], [0xE2, 0x80, 0xAF], [0xE2, 0x81, 0x9F], [0xE3, 0x80, 0x80]]

def whiteSpaceBack : List Bytes := whiteSpace.map List.reverse

def trimLeft (l : Bytes) : Bytes := trimMarks whiteSpace l.length l

def trimRight (l : Bytes) : Bytes := (trimMarks whiteSpaceBack l.length l.reverse).reverse

/-- `strings.TrimSpace`. -/
def trimBytes (l : Bytes) : Bytes := trimRight (trimLeft l)

instance (marks : List Bytes) : Decidable (Apart marks) :=
  decidable_of_iff ((∀ m ∈ marks, m ≠ []) ∧ ∀ m ∈ marks, ∀ m' ∈ marks, m.isPrefixOf m' → m = m')
    ⟨fun h => ⟨h.1, fun m hm m' hm' hpre => h.2 m hm m' hm' ( isPrefixOf_iff_prefix.mpr hpre)⟩,
      fun h => ⟨h.1, fun m hm m' hm' hpre =>
        h.2 m hm m' hm' ( isPrefixOf_iff_prefix.mp hpre)⟩⟩

theorem whiteSpace_apart : Apart whiteSpace := by decide

theorem whiteSpaceBack_apart : Apart whiteSpaceBack := by decide

/-- A byte inside a mark begins none. -/
theorem whiteSpace_inside : ∀ m ∈ whiteSpace, ∀ b ∈ m.tail, ∀ m' ∈ whiteSpace,
    m'.head? ≠ some b := by decide +kernel

/-- White space alone. -/
def Blank (l : Bytes) : Prop := ∃ taken : List Bytes, (∀ m ∈ taken, m ∈ whiteSpace) ∧ l = taken.flatten

theorem Blank.nil : Blank [] := ⟨[], fun _ h => absurd h not_mem_nil, rfl⟩

theorem Blank.mark {m : Bytes} (h : m ∈ whiteSpace) : Blank m :=
  ⟨[m], fun _ hx => mem_singleton.mp hx ▸ h, by simp⟩

theorem Blank.append {l l' : Bytes} (h : Blank l) (h' : Blank l') : Blank (l ++ l') := by
  obtain ⟨taken, htaken, rfl⟩ := h
  obtain ⟨taken', htaken', rfl⟩ := h'
  refine ⟨taken ++ taken', fun m hm => ?_, by rw [flatten_append]⟩
  rcases mem_append.mp hm with hm | hm
  · exact htaken m hm
  · exact htaken' m hm

/-- Neither end is white space. -/
structure Trimmed (l : Bytes) : Prop where
  front : ∀ m ∈ whiteSpace, ¬ m <+: l
  back : ∀ m ∈ whiteSpace, ¬ m <:+ l

theorem Trimmed.nil : Trimmed [] :=
  ⟨fun m hm h => whiteSpace_apart.nonempty m hm (prefix_nil.mp h),
    fun m hm h => whiteSpace_apart.nonempty m hm (suffix_nil.mp h)⟩

/-- The first and the last byte belong to no white space. -/
theorem Trimmed.of_ends {l : Bytes} {b c : UInt8} (hfront : l.head? = some b)
    (hback : l.getLast? = some c) (hb : ∀ m ∈ whiteSpace, m.head? ≠ some b)
    (hc : ∀ m ∈ whiteSpace, m.getLast? ≠ some c) : Trimmed l := by
  refine ⟨fun m hm hpre => hb m hm ?_, fun m hm hsuf => hc m hm ?_⟩
  · obtain ⟨rest, rfl⟩ := hpre
    obtain ⟨first, more, rfl⟩ := exists_cons_of_ne_nil (whiteSpace_apart.nonempty m hm)
    exact hfront
  · obtain ⟨rest, rfl⟩ := hsuf
    rwa [getLast?_append_of_ne_nil _ (whiteSpace_apart.nonempty m hm)] at hback

theorem trimLeft_unique {w rest : Bytes} (hw : Blank w)
    (hrest : ∀ m ∈ whiteSpace, ¬ m <+: rest) : trimLeft (w ++ rest) = rest := by
  obtain ⟨taken, htaken, rfl⟩ := hw
  refine trimMarks_unique whiteSpace_apart _ taken rest htaken (dropMark_none.mpr hrest) ?_
  rw [length_append]
  omega

theorem trimLeft_spec (l : Bytes) :
    ∃ w, Blank w ∧ l = w ++ trimLeft l ∧ ∀ m ∈ whiteSpace, ¬ m <+: trimLeft l := by
  obtain ⟨taken, htaken, hl, hnone⟩ := trimMarks_spec whiteSpace_apart l.length l (Nat.le_refl _)
  exact ⟨_, ⟨taken, htaken, rfl⟩, hl, dropMark_none.mp hnone⟩

theorem trimRight_unique {w rest : Bytes} (hw : Blank w)
    (hrest : ∀ m ∈ whiteSpace, ¬ m <:+ rest) : trimRight (rest ++ w) = rest := by
  obtain ⟨taken, htaken, rfl⟩ := hw
  have hback : dropMark whiteSpaceBack rest.reverse = none := by
    refine dropMark_none.mpr fun back hback hpre => ?_
    obtain ⟨m, hm, rfl⟩ := mem_map.mp hback
    exact hrest m hm ( reverse_prefix.mp hpre)
  have hrun := trimMarks_unique whiteSpaceBack_apart (rest ++ taken.flatten).length
    (taken.reverse.map List.reverse) rest.reverse (fun back hmem => ?_) hback ?_
  · unfold trimRight
    rw [reverse_append, reverse_flatten, ← map_reverse, hrun, reverse_reverse]
  · obtain ⟨m, hm, rfl⟩ := mem_map.mp hmem
    exact mem_map_of_mem (htaken m (mem_reverse.mp hm))
  · rw [map_reverse, ← reverse_flatten, length_reverse, length_append]
    omega

theorem trimRight_spec (l : Bytes) :
    ∃ w, Blank w ∧ l = trimRight l ++ w ∧ ∀ m ∈ whiteSpace, ¬ m <:+ trimRight l := by
  obtain ⟨taken, htaken, hl, hnone⟩ := trimMarks_spec whiteSpaceBack_apart l.length l.reverse
    (Nat.le_of_eq length_reverse)
  refine ⟨(taken.reverse.map List.reverse).flatten, ⟨_, fun w hw => ?_, rfl⟩, ?_, fun m hm hsuf => ?_⟩
  · obtain ⟨back, hback, rfl⟩ := mem_map.mp hw
    obtain ⟨m, hm, rfl⟩ := mem_map.mp (htaken back (mem_reverse.mp hback))
    rwa [reverse_reverse]
  · have hreverse := congrArg List.reverse hl
    rwa [reverse_reverse, reverse_append, reverse_flatten, ← map_reverse]
      at hreverse
  · refine dropMark_none.mp hnone m.reverse (mem_map_of_mem hm) ?_
    rw [← reverse_prefix] at hsuf
    unfold trimRight at hsuf
    rwa [reverse_reverse] at hsuf

/-- White space behind a text makes no white space of its front. -/
theorem front_append {l w : Bytes} (hl : l ≠ []) (hfront : ∀ m ∈ whiteSpace, ¬ m <+: l)
    (hw : Blank w) : ∀ m ∈ whiteSpace, ¬ m <+: l ++ w := by
  intro m hm hpre
  rcases prefix_or_prefix_of_prefix hpre (prefix_append l w) with hinside | hover
  · exact hfront m hm hinside
  · -- the mark would go on into the white space
    obtain ⟨rest, rfl⟩ := hover
    have hrest : rest <+: w := (prefix_append_right_inj l).mp hpre
    obtain ⟨taken, htaken, rfl⟩ := hw
    cases rest with
    | nil => exact hfront l (by rwa [append_nil] at hm) (prefix_refl l)
    | cons b rest =>
      cases taken with
      | nil => exact absurd (prefix_nil.mp hrest) (cons_ne_nil _ _)
      | cons m' taken =>
        have hm' := htaken m' mem_cons_self
        obtain ⟨first, more, rfl⟩ := exists_cons_of_ne_nil (whiteSpace_apart.nonempty m' hm')
        rw [flatten_cons, cons_append, cons_prefix_cons] at hrest
        refine whiteSpace_inside _ hm b ?_ _ hm' (congrArg some hrest.1.symm)
        obtain ⟨c, l, rfl⟩ := exists_cons_of_ne_nil hl
        exact mem_append_right _ mem_cons_self

theorem trimBytes_unique {w l w' : Bytes} (hw : Blank w) (hl : Trimmed l) (hw' : Blank w') :
    trimBytes (w ++ l ++ w') = l := by
  unfold trimBytes
  by_cases hnil : l = []
  · subst hnil
    rw [append_nil, ← append_nil (w ++ w'),
      trimLeft_unique (hw.append hw') Trimmed.nil.front]
    exact @trimRight_unique [] [] Blank.nil Trimmed.nil.back
  · rw [append_assoc, trimLeft_unique hw (front_append hnil hl.front hw')]
    exact trimRight_unique hw' hl.back

theorem trimBytes_spec (l : Bytes) :
    ∃ w w', Blank w ∧ Blank w' ∧ l = w ++ trimBytes l ++ w' ∧ Trimmed (trimBytes l) := by
  obtain ⟨w, hw, hl, hfront⟩ := trimLeft_spec l
  obtain ⟨w', hw', hl', hback⟩ := trimRight_spec (trimLeft l)
  refine ⟨w, w', hw, hw', ?_, fun m hm hpre => ?_, hback⟩
  · rw [append_assoc]
    exact hl.trans (congrArg (w ++ ·) hl')
  · refine hfront m hm ?_
    rw [hl']
    exact hpre.trans (prefix_append _ _)

theorem trimBytes_of_trimmed {l : Bytes} (h : Trimmed l) : trimBytes l = l := by
  have := trimBytes_unique Blank.nil h Blank.nil
  rwa [append_nil] at this

theorem trimBytes_trimmed (l : Bytes) : Trimmed (trimBytes l) := by
  obtain ⟨_, _, _, _, _, h⟩ := trimBytes_spec l
  exact h

@[simp] theorem trimBytes_trimBytes (l : Bytes) : trimBytes (trimBytes l) = trimBytes l :=
  trimBytes_of_trimmed (trimBytes_trimmed l)

/-- White space around a text is trimmed with it. -/
theorem trimBytes_surrounded {w l w' : Bytes} (hw : Blank w) (hw' : Blank w') :
    trimBytes (w ++ l ++ w') = trimBytes l := by
  obtain ⟨v, v', hv, hv', hl, htrimmed⟩ := trimBytes_spec l
  have hsame : w ++ l ++ w' = (w ++ v) ++ trimBytes l ++ (v' ++ w') := by
    conv_lhs => rw [hl]
    simp only [append_assoc]
  rw [hsame]
  exact trimBytes_unique (hw.append hv) htrimmed (hv'.append hw')

theorem trimBytes_newline (l : Bytes) : trimBytes (l ++ [newline]) = trimBytes l :=
  trimBytes_surrounded (w := []) Blank.nil (Blank.mark (m := [newline]) (by decide))

end Evener.Lib
