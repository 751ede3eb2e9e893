/-
  One round of an expansion, on trees: the first finished group with a comma gives way to its
  alternatives, or the first finished group without one to its content.

  What a round leaves has the meaning it found, fewer groups, and in all the same spread.
-/
import Evener.GlobPattern.Trees
import Mathlib.Algebra.BigOperators.Ring.List
import Mathlib.Tactic.Ring

namespace Evener.GlobPattern

open List Function
open Evener.Lib (Bytes)

def Pattern.append : Pattern → Pattern → Pattern
  | .nil, q => q
  | .atom a rest, q => .atom a (rest.append q)
  | .group first others rest, q => .group first others (rest.append q)

def Alternatives.toList : Alternatives → List Pattern
  | .nil => []
  | .cons p rest => p :: rest.toList

/-- `many` asks for a group of several alternatives, else for a group of one. -/
def Alternatives.Asked (many : Bool) (others : Alternatives) : Prop :=
  decide (others.count ≠ 0) = many

instance (many : Bool) (others : Alternatives) : Decidable (others.Asked many) :=
  inferInstanceAs (Decidable (_ = _))

mutual

/-- What the first finished group that is asked for leaves, one pattern for each alternative. -/
def Pattern.splices (many : Bool) : Pattern → Option (List Pattern)
  | .nil => none
  | .atom a rest => (rest.splices many).map (·.map (.atom a))
  | .group first others rest =>
    match first.splices many with
    | some qs => some (qs.map (.group · others rest))
    | none =>
      match others.splices many with
      | some qs => some (qs.map (.group first · rest))
      | none =>
        if others.Asked many then some ((first :: others.toList).map (·.append rest))
        else (rest.splices many).map (·.map (.group first others))

def Alternatives.splices (many : Bool) : Alternatives → Option (List Alternatives)
  | .nil => none
  | .cons p rest =>
    match p.splices many with
    | some qs => some (qs.map (.cons · rest))
    | none => (rest.splices many).map (·.map (.cons p))

end

variable {many inside : Bool}

/-! ## Where a round takes place -/

variable {rest first q : Pattern} {ps : Alternatives}

theorem Pattern.splices_atom {a : Atom} {qs : List Pattern}
    (h : (Pattern.atom a rest).splices many = some qs) :
    ∃ rs, rest.splices many = some rs ∧ qs = rs.map (.atom a) := by
  simp only [Pattern.splices, Option.map_eq_some_iff] at h
  obtain ⟨rs, hrs, rfl⟩ := h
  exact ⟨rs, hrs, rfl⟩

theorem Pattern.splices_group {others : Alternatives} {qs : List Pattern}
    (h : (Pattern.group first others rest).splices many = some qs) :
    (∃ fs, first.splices many = some fs ∧ qs = fs.map (.group · others rest)) ∨
    (first.splices many = none ∧
      ∃ os, others.splices many = some os ∧ qs = os.map (.group first · rest)) ∨
    (first.splices many = none ∧ others.splices many = none ∧ others.Asked many ∧
      qs = (first :: others.toList).map (·.append rest)) ∨
    (first.splices many = none ∧ others.splices many = none ∧ ¬ others.Asked many ∧
      ∃ rs, rest.splices many = some rs ∧ qs = rs.map (.group first others)) := by
  unfold Pattern.splices at h
  cases hfirst : first.splices many with
  | some fs =>
    rw [hfirst] at h
    exact .inl ⟨fs, rfl, (Option.some.inj h).symm⟩
  | none =>
    rw [hfirst] at h
    refine .inr ?_
    cases hothers : others.splices many with
    | some os =>
      rw [hothers] at h
      exact .inl ⟨rfl, os, rfl, (Option.some.inj h).symm⟩
    | none =>
      rw [hothers] at h
      refine .inr ?_
      by_cases hasked : others.Asked many
      · rw [if_pos hasked] at h
        exact .inl ⟨rfl, rfl, hasked, (Option.some.inj h).symm⟩
      · rw [if_neg hasked, Option.map_eq_some_iff] at h
        obtain ⟨rs, hrs, rfl⟩ := h
        exact .inr ⟨rfl, rfl, hasked, rs, hrs, rfl⟩

theorem Alternatives.splices_cons {p : Pattern} {rest : Alternatives} {qs : List Alternatives}
    (h : (Alternatives.cons p rest).splices many = some qs) :
    (∃ ps, p.splices many = some ps ∧ qs = ps.map (.cons · rest)) ∨
    (p.splices many = none ∧ ∃ rs, rest.splices many = some rs ∧ qs = rs.map (.cons p)) := by
  unfold Alternatives.splices at h
  cases hp : p.splices many with
  | some ps =>
    rw [hp] at h
    exact .inl ⟨ps, rfl, (Option.some.inj h).symm⟩
  | none =>
    rw [hp] at h
    rw [Option.map_eq_some_iff] at h
    obtain ⟨rs, hrs, rfl⟩ := h
    exact .inr ⟨rfl, rs, hrs, rfl⟩

/-- No group that is asked for stands in the parts of a pattern without one. -/
theorem Pattern.splices_group_none {others : Alternatives}
    (h : (Pattern.group first others rest).splices many = none) :
    first.splices many = none ∧ others.splices many = none ∧ ¬ others.Asked many ∧
      rest.splices many = none := by
  unfold Pattern.splices at h
  cases hfirst : first.splices many with
  | some fs => rw [hfirst] at h; cases h
  | none =>
    rw [hfirst] at h
    cases hothers : others.splices many with
    | some os => rw [hothers] at h; cases h
    | none =>
      rw [hothers] at h
      by_cases hasked : others.Asked many
      · rw [if_pos hasked] at h
        cases h
      · rw [if_neg hasked, Option.map_eq_none_iff] at h
        exact ⟨rfl, rfl, hasked, h⟩

theorem Pattern.splices_atom_none {a : Atom} (h : (Pattern.atom a rest).splices many = none) :
    rest.splices many = none := by
  simpa only [Pattern.splices, Option.map_eq_none_iff] using h

theorem Alternatives.splices_cons_none {p : Pattern} {rest : Alternatives}
    (h : (Alternatives.cons p rest).splices many = none) :
    p.splices many = none ∧ rest.splices many = none := by
  unfold Alternatives.splices at h
  cases hp : p.splices many with
  | some ps => rw [hp] at h; cases h
  | none =>
    rw [hp] at h
    rw [Option.map_eq_none_iff] at h
    exact ⟨rfl, h⟩

theorem Alternatives.eq_nil_of_count (h : ps.count = 0) : ps = .nil := by
  cases ps with
  | nil => rfl
  | cons p rest => simp [Alternatives.count] at h

theorem Alternatives.length_toList (ps : Alternatives) : ps.toList.length = ps.count := by
  cases ps with
  | nil => rfl
  | cons _ rest =>
    rw [Alternatives.toList, length_cons, rest.length_toList, Alternatives.count]

/-- A group that several alternatives are asked of and that has not several has one. -/
theorem Alternatives.eq_nil_of_not_asked (h : ¬ ps.Asked true) : ps = .nil := by
  apply Alternatives.eq_nil_of_count
  by_contra hne
  exact h (decide_eq_true hne)

theorem Alternatives.eq_nil_of_asked (h : ps.Asked false) : ps = .nil := by
  apply Alternatives.eq_nil_of_count
  by_contra hne
  exact of_decide_eq_false h hne

/-! ## Joined patterns -/

theorem Pattern.tokens_append (p q : Pattern) : (p.append q).tokens = p.tokens ++ q.tokens := by
  cases p with
  | nil => rfl
  | atom a rest =>
    rw [Pattern.append, Pattern.tokens, rest.tokens_append q, Pattern.tokens, cons_append]
  | group first others rest =>
    simp only [Pattern.append, Pattern.tokens, rest.tokens_append q, cons_append,
      append_assoc]

theorem Pattern.text_append (p q : Pattern) : (p.append q).text = p.text ++ q.text := by
  rw [Pattern.text, Pattern.tokens_append, flatten_append]
  rfl

theorem Pattern.groups_append (p q : Pattern) : (p.append q).groups = p.groups + q.groups := by
  cases p with
  | nil => simp [Pattern.append, Pattern.groups]
  | atom a rest =>
    rw [Pattern.append, Pattern.groups, rest.groups_append q, Pattern.groups]
  | group first others rest =>
    rw [Pattern.append, Pattern.groups, rest.groups_append q, Pattern.groups]
    omega

theorem Pattern.spread_append (p q : Pattern) : (p.append q).spread = p.spread * q.spread := by
  cases p with
  | nil => simp [Pattern.append, Pattern.spread]
  | atom a rest =>
    rw [Pattern.append, Pattern.spread, rest.spread_append q, Pattern.spread]
  | group first others rest =>
    rw [Pattern.append, Pattern.spread, rest.spread_append q, Pattern.spread]
    ring

theorem Pattern.mem_meaning_append (p q : Pattern) (b : Bytes) :
    b ∈ (p.append q).meaning ↔ ∃ x ∈ p.meaning, ∃ y ∈ q.meaning, x ++ y = b := by
  cases p with
  | nil => simp [Pattern.append, Pattern.meaning]
  | atom a rest =>
    simp only [Pattern.append, Pattern.meaning, mem_map, rest.mem_meaning_append q]
    constructor
    · rintro ⟨_, ⟨x, hx, y, hy, rfl⟩, rfl⟩
      exact ⟨_, ⟨x, hx, rfl⟩, y, hy, append_assoc ..⟩
    · rintro ⟨_, ⟨x, hx, rfl⟩, y, hy, rfl⟩
      exact ⟨_, ⟨x, hx, y, hy, rfl⟩, (append_assoc ..).symm⟩
  | group first others rest =>
    simp only [Pattern.append, Pattern.meaning, mem_flatMap, mem_map,
      rest.mem_meaning_append q]
    constructor
    · rintro ⟨c, hc, _, ⟨x, hx, y, hy, rfl⟩, rfl⟩
      exact ⟨_, ⟨c, hc, x, hx, rfl⟩, y, hy, append_assoc ..⟩
    · rintro ⟨_, ⟨c, hc, x, hx, rfl⟩, y, hy, rfl⟩
      exact ⟨c, hc, _, ⟨x, hx, y, hy, rfl⟩, (append_assoc ..).symm⟩

theorem Pattern.Fits.relax : ∀ {p : Pattern}, p.Fits true → p.Fits inside
  | .nil, _ => by simp [Pattern.Fits]
  | .atom a rest, h => by
    simp only [Pattern.Fits] at h ⊢
    exact ⟨fun _ => h.1 trivial, h.2.relax⟩
  | .group first others rest, h => by
    simp only [Pattern.Fits] at h ⊢
    exact ⟨h.1, h.2.1, h.2.2.relax⟩

theorem Pattern.Fits.append (hq : q.Fits inside) :
    ∀ {p : Pattern}, p.Fits inside → (p.append q).Fits inside 
  | .nil, _ => hq
  | .atom a rest, h => by
    simp only [Pattern.append, Pattern.Fits] at h ⊢
    exact ⟨h.1, Pattern.Fits.append hq h.2⟩
  | .group first others rest, h => by
    simp only [Pattern.append, Pattern.Fits] at h ⊢
    exact ⟨h.1, h.2.1, Pattern.Fits.append hq h.2.2⟩

/-! ## The alternatives of a group -/

theorem Alternatives.fits_of_mem :
    ∀ {ps : Alternatives}, ps.Fits → q ∈ ps.toList → q.Fits true 
  | .nil, _, hq => by simp [Alternatives.toList] at hq
  | .cons p rest, h, hq => by
    simp only [Alternatives.Fits] at h
    rcases mem_cons.mp hq with rfl | hq
    · exact h.1
    · exact Alternatives.fits_of_mem h.2 hq

theorem Alternatives.groups_of_mem :
    ∀ {ps : Alternatives}, q ∈ ps.toList → q.groups ≤ ps.groups 
  | .nil, hq => by simp [Alternatives.toList] at hq
  | .cons p rest, hq => by
    rw [Alternatives.groups]
    rcases mem_cons.mp hq with rfl | hq
    · omega
    · have hrest := Alternatives.groups_of_mem hq
      omega

theorem Alternatives.splices_of_mem :
    ∀ {ps : Alternatives}, ps.splices many = none → q ∈ ps.toList → q.splices many = none 
  | .nil, _, hq => by simp [Alternatives.toList] at hq
  | .cons p rest, h, hq => by
    obtain ⟨hp, hrest⟩ := Alternatives.splices_cons_none h
    rcases mem_cons.mp hq with rfl | hq
    · exact hp
    · exact Alternatives.splices_of_mem hrest hq

theorem Alternatives.mem_meaning (b : Bytes) (ps : Alternatives) :
    b ∈ ps.meaning ↔ ∃ q ∈ ps.toList, b ∈ q.meaning := by
  cases ps with
  | nil => simp [Alternatives.meaning, Alternatives.toList]
  | cons p rest =>
    simp [Alternatives.meaning, Alternatives.toList, rest.mem_meaning b]

/-! ## What a round keeps -/

mutual

theorem Pattern.splices_ne_nil : ∀ {p : Pattern} {qs : List Pattern},
    p.splices many = some qs → qs ≠ []
  | .nil, _, h => by simp [Pattern.splices] at h
  | .atom a rest, qs, h => by
    obtain ⟨rs, hrs, rfl⟩ := Pattern.splices_atom h
    simpa using Pattern.splices_ne_nil hrs
  | .group first others rest, qs, h => by
    obtain ⟨fs, hfs, rfl⟩ | ⟨-, os, hos, rfl⟩ | ⟨-, -, -, rfl⟩ | ⟨-, -, -, rs, hrs, rfl⟩ :=
      Pattern.splices_group h
    · simpa using Pattern.splices_ne_nil hfs
    · simpa using Alternatives.splices_ne_nil hos
    · simp
    · simpa using Pattern.splices_ne_nil hrs

theorem Alternatives.splices_ne_nil : ∀ {ps : Alternatives} {qs : List Alternatives},
    ps.splices many = some qs → qs ≠ []
  | .nil, _, h => by simp [Alternatives.splices] at h
  | .cons p rest, qs, h => by
    obtain ⟨ps, hps, rfl⟩ | ⟨-, rs, hrs, rfl⟩ := Alternatives.splices_cons h
    · simpa using Pattern.splices_ne_nil hps
    · simpa using Alternatives.splices_ne_nil hrs

end

mutual

theorem Pattern.splices_fits : ∀ {p : Pattern} {inside : Bool} {qs : List Pattern}, p.Fits inside →
    p.splices many = some qs → ∀ q ∈ qs, q.Fits inside
  | .nil, _, _, _, h => by simp [Pattern.splices] at h
  | .atom a rest, inside, qs, hfits, h => by
    obtain ⟨rs, hrs, rfl⟩ := Pattern.splices_atom h
    rw [Pattern.Fits] at hfits
    intro q hq
    obtain ⟨r, hr, rfl⟩ := mem_map.mp hq
    rw [Pattern.Fits]
    exact ⟨hfits.1, Pattern.splices_fits hfits.2 hrs r hr⟩
  | .group first others rest, inside, qs, hfits, h => by
    rw [Pattern.Fits] at hfits
    obtain ⟨hfirst, hothers, hrest⟩ := hfits
    intro q hq
    obtain ⟨fs, hfs, rfl⟩ | ⟨-, os, hos, rfl⟩ | ⟨-, -, -, rfl⟩ | ⟨-, -, -, rs, hrs, rfl⟩ :=
      Pattern.splices_group h <;> obtain ⟨r, hr, rfl⟩ := mem_map.mp hq
    · rw [Pattern.Fits]
      exact ⟨Pattern.splices_fits hfirst hfs r hr, hothers, hrest⟩
    · rw [Pattern.Fits]
      exact ⟨hfirst, Alternatives.splices_fits hothers hos r hr, hrest⟩
    · apply Pattern.Fits.append hrest
      rcases mem_cons.mp hr with rfl | hr
      · exact hfirst.relax
      · exact (Alternatives.fits_of_mem hothers hr).relax
    · rw [Pattern.Fits]
      exact ⟨hfirst, hothers, Pattern.splices_fits hrest hrs r hr⟩

theorem Alternatives.splices_fits : ∀ {ps : Alternatives} {qs : List Alternatives}, ps.Fits →
    ps.splices many = some qs → ∀ q ∈ qs, q.Fits
  | .nil, _, _, h => by simp [Alternatives.splices] at h
  | .cons p rest, qs, hfits, h => by
    rw [Alternatives.Fits] at hfits
    intro q hq
    obtain ⟨ps, hps, rfl⟩ | ⟨-, rs, hrs, rfl⟩ := Alternatives.splices_cons h <;>
      obtain ⟨r, hr, rfl⟩ := mem_map.mp hq
    · rw [Alternatives.Fits]
      exact ⟨Pattern.splices_fits hfits.1 hps r hr, hfits.2⟩
    · rw [Alternatives.Fits]
      exact ⟨hfits.1, Alternatives.splices_fits hfits.2 hrs r hr⟩

end

mutual

theorem Pattern.splices_groups : ∀ {p : Pattern} {qs : List Pattern},
    p.splices many = some qs → ∀ q ∈ qs, q.groups < p.groups
  | .nil, _, h => by simp [Pattern.splices] at h
  | .atom a rest, qs, h => by
    obtain ⟨rs, hrs, rfl⟩ := Pattern.splices_atom h
    intro q hq
    obtain ⟨r, hr, rfl⟩ := mem_map.mp hq
    rw [Pattern.groups, Pattern.groups]
    exact Pattern.splices_groups hrs r hr
  | .group first others rest, qs, h => by
    intro q hq
    obtain ⟨fs, hfs, rfl⟩ | ⟨-, os, hos, rfl⟩ | ⟨-, -, -, rfl⟩ | ⟨-, -, -, rs, hrs, rfl⟩ :=
      Pattern.splices_group h <;> obtain ⟨r, hr, rfl⟩ := mem_map.mp hq
    · have hlt := Pattern.splices_groups hfs r hr
      rw [Pattern.groups, Pattern.groups]
      omega
    · have hlt := Alternatives.splices_groups hos r hr
      rw [Pattern.groups, Pattern.groups]
      omega
    · rw [Pattern.groups_append, Pattern.groups]
      rcases mem_cons.mp hr with rfl | hr
      · omega
      · have hle := Alternatives.groups_of_mem hr
        omega
    · have hlt := Pattern.splices_groups hrs r hr
      rw [Pattern.groups, Pattern.groups]
      omega

theorem Alternatives.splices_groups : ∀ {ps : Alternatives} {qs : List Alternatives},
    ps.splices many = some qs → ∀ q ∈ qs, q.groups < ps.groups
  | .nil, _, h => by simp [Alternatives.splices] at h
  | .cons p rest, qs, h => by
    intro q hq
    obtain ⟨ps, hps, rfl⟩ | ⟨-, rs, hrs, rfl⟩ := Alternatives.splices_cons h <;>
      obtain ⟨r, hr, rfl⟩ := mem_map.mp hq
    · have hlt := Pattern.splices_groups hps r hr
      rw [Alternatives.groups, Alternatives.groups]
      omega
    · have hlt := Alternatives.splices_groups hrs r hr
      rw [Alternatives.groups, Alternatives.groups]
      omega

end

/-! ## A round keeps the meaning -/

theorem Pattern.mem_meaning_group (first rest : Pattern) (others : Alternatives) (b : Bytes) :
    b ∈ (Pattern.group first others rest).meaning ↔
      ∃ c, (c ∈ first.meaning ∨ c ∈ others.meaning) ∧ ∃ y ∈ rest.meaning, c ++ y = b := by
  simp only [Pattern.meaning, mem_flatMap, mem_append, mem_map]

/-- Where one of two parts splits up and the other stays beside each piece. -/
theorem exists_or_iff {α β : Type} {l : List α} (hne : l ≠ []) {part : β → Prop}
    {piece : α → β → Prop} (hpart : ∀ c, part c ↔ ∃ q ∈ l, piece q c) (other good : β → Prop) :
    (∃ c, (part c ∨ other c) ∧ good c) ↔ ∃ q ∈ l, ∃ c, (piece q c ∨ other c) ∧ good c := by
  constructor
  · rintro ⟨c, hc | hc, hgood⟩
    · obtain ⟨q, hq, hqc⟩ := (hpart c).mp hc
      exact ⟨q, hq, c, .inl hqc, hgood⟩
    · obtain ⟨q, hq⟩ := exists_mem_of_ne_nil l hne
      exact ⟨q, hq, c, .inr hc, hgood⟩
  · rintro ⟨q, hq, c, hc | hc, hgood⟩
    · exact ⟨c, .inl ((hpart c).mpr ⟨q, hq, hc⟩), hgood⟩
    · exact ⟨c, .inr hc, hgood⟩

mutual

theorem Pattern.splices_meaning (b : Bytes) : ∀ {p : Pattern} {qs : List Pattern},
    p.splices many = some qs → (b ∈ p.meaning ↔ ∃ q ∈ qs, b ∈ q.meaning)
  | .nil, _, h => by simp [Pattern.splices] at h
  | .atom a rest, qs, h => by
    obtain ⟨rs, hrs, rfl⟩ := Pattern.splices_atom h
    have hrest := fun c => Pattern.splices_meaning c hrs
    simp only [Pattern.meaning, mem_map, exists_exists_and_eq_and, hrest]
    tauto
  | .group first others rest, qs, h => by
    rw [Pattern.mem_meaning_group]
    obtain ⟨fs, hfs, rfl⟩ | ⟨-, os, hos, rfl⟩ | ⟨-, -, -, rfl⟩ | ⟨-, -, -, rs, hrs, rfl⟩ :=
      Pattern.splices_group h
    · rw [exists_or_iff (Pattern.splices_ne_nil hfs) fun c => Pattern.splices_meaning c hfs]
      simp only [mem_map, exists_exists_and_eq_and, Pattern.mem_meaning_group]
    · simp only [mem_map, exists_exists_and_eq_and, Pattern.mem_meaning_group, or_comm]
      exact exists_or_iff (Alternatives.splices_ne_nil hos)
        (fun c => Alternatives.splices_meaning c hos) _ _
    · simp only [map_cons, exists_mem_cons_iff, mem_map, exists_exists_and_eq_and,
        Pattern.mem_meaning_append, Alternatives.mem_meaning]
      constructor
      · rintro ⟨c, hc | ⟨q, hq, hc⟩, hrest⟩
        · exact .inl ⟨c, hc, hrest⟩
        · exact .inr ⟨q, hq, c, hc, hrest⟩
      · rintro (⟨c, hc, hrest⟩ | ⟨q, hq, c, hc, hrest⟩)
        · exact ⟨c, .inl hc, hrest⟩
        · exact ⟨c, .inr ⟨q, hq, hc⟩, hrest⟩
    · have hrest := fun c => Pattern.splices_meaning c hrs
      simp only [mem_map, exists_exists_and_eq_and, Pattern.mem_meaning_group, hrest]
      constructor
      · rintro ⟨c, hc, y, ⟨q, hq, hy⟩, hb⟩
        exact ⟨q, hq, c, hc, y, hy, hb⟩
      · rintro ⟨q, hq, c, hc, y, hy, hb⟩
        exact ⟨c, hc, y, ⟨q, hq, hy⟩, hb⟩

theorem Alternatives.splices_meaning (b : Bytes) :
    ∀ {ps : Alternatives} {qs : List Alternatives},
    ps.splices many = some qs → (b ∈ ps.meaning ↔ ∃ q ∈ qs, b ∈ q.meaning)
  | .nil, _, h => by simp [Alternatives.splices] at h
  | .cons p rest, qs, h => by
    obtain ⟨ps, hps, rfl⟩ | ⟨-, rs, hrs, rfl⟩ := Alternatives.splices_cons h
    · obtain ⟨q, hq⟩ := exists_mem_of_ne_nil _ (Pattern.splices_ne_nil hps)
      simp only [mem_map, exists_exists_and_eq_and, Alternatives.meaning, mem_append,
        Pattern.splices_meaning b hps]
      constructor
      · rintro (⟨r, hr, hb⟩ | hb)
        · exact ⟨r, hr, .inl hb⟩
        · exact ⟨q, hq, .inr hb⟩
      · rintro ⟨r, hr, hb | hb⟩
        · exact .inl ⟨r, hr, hb⟩
        · exact .inr hb
    · obtain ⟨q, hq⟩ := exists_mem_of_ne_nil _ (Alternatives.splices_ne_nil hrs)
      simp only [mem_map, exists_exists_and_eq_and, Alternatives.meaning, mem_append,
        Alternatives.splices_meaning b hrs]
      constructor
      · rintro (hb | ⟨r, hr, hb⟩)
        · exact ⟨q, hq, .inl hb⟩
        · exact ⟨r, hr, .inr hb⟩
      · rintro ⟨r, hr, hb | hb⟩
        · exact .inl hb
        · exact .inr ⟨r, hr, hb⟩

end

/-! ## A round shares out the spread -/

mutual

theorem Pattern.spread_eq_one : ∀ {p : Pattern}, p.splices true = none → p.spread = 1
  | .nil, _ => by rw [Pattern.spread]
  | .atom a rest, h => by
    rw [Pattern.spread]
    exact Pattern.spread_eq_one (Pattern.splices_atom_none h)
  | .group first others rest, h => by
    obtain ⟨hfirst, -, hasked, hrest⟩ := Pattern.splices_group_none h
    rw [Alternatives.eq_nil_of_not_asked hasked, Pattern.spread, Pattern.spread_eq_one hfirst,
      Pattern.spread_eq_one hrest, Alternatives.count, Alternatives.spread]

theorem Alternatives.spread_eq_one : ∀ {ps : Alternatives}, ps.splices true = none → ps.spread = 1
  | .nil, _ => by rw [Alternatives.spread]
  | .cons p rest, h => by
    obtain ⟨hp, hrest⟩ := Alternatives.splices_cons_none h
    rw [Alternatives.spread, Pattern.spread_eq_one hp, Alternatives.spread_eq_one hrest]

end

theorem Alternatives.count_of_mem_splices : ∀ {ps : Alternatives} {qs : List Alternatives},
    ps.splices many = some qs → ∀ q ∈ qs, q.count = ps.count
  | .nil, _, h => by simp [Alternatives.splices] at h
  | .cons p rest, qs, h => by
    intro q hq
    obtain ⟨ps, hps, rfl⟩ | ⟨-, rs, hrs, rfl⟩ := Alternatives.splices_cons h <;>
      obtain ⟨r, hr, rfl⟩ := mem_map.mp hq
    · rfl
    · rw [Alternatives.count, Alternatives.count_of_mem_splices hrs r hr, Alternatives.count]

/-- A sum of products that differ in one factor. -/
theorem sum_map_mul {α : Type} {l : List α} {f g : α → Nat} {k : Nat}
    (h : ∀ q ∈ l, f q = k * g q) : (l.map f).sum = k * (l.map g).sum := by
  rw [← sum_map_mul_left, map_congr_left h]

theorem Alternatives.sum_spread_alone (hfirst : first.splices true = none)
    (h : ps.splices true = none) :
    (((first :: ps.toList).map (·.append rest)).map Pattern.spread).sum =
      (ps.count + 1) * rest.spread := by
  rw [map_map, sum_map_mul (g := fun _ => 1) (k := rest.spread)]
  · rw [map_const', sum_replicate_nat, length_cons,
      Alternatives.length_toList]
    ring
  · intro q hq
    have hspread : q.spread = 1 := by
      apply Pattern.spread_eq_one
      rcases mem_cons.mp hq with rfl | hq
      · exact hfirst
      · exact Alternatives.splices_of_mem h hq
    rw [comp_apply, Pattern.spread_append, hspread, Nat.one_mul, Nat.mul_one]

mutual

theorem Pattern.splices_spread : ∀ {p : Pattern} {qs : List Pattern},
    p.splices many = some qs → (qs.map Pattern.spread).sum = p.spread
  | .nil, _, h => by simp [Pattern.splices] at h
  | .atom a rest, qs, h => by
    obtain ⟨rs, hrs, rfl⟩ := Pattern.splices_atom h
    rw [map_map, Pattern.spread, ← Pattern.splices_spread hrs]
    rfl
  | .group first others rest, qs, h => by
    obtain ⟨fs, hfs, rfl⟩ | ⟨-, os, hos, rfl⟩ | ⟨hfirst, hothers, hasked, rfl⟩ |
      ⟨-, -, -, rs, hrs, rfl⟩ := Pattern.splices_group h
    · rw [map_map, Pattern.spread, ← Pattern.splices_spread hfs,
        sum_map_mul (k := (others.count + 1) * others.spread * rest.spread) (g := Pattern.spread)]
      · ring
      · intro q _
        rw [comp_apply, Pattern.spread]
        ring
    · rw [map_map, Pattern.spread, ← Alternatives.splices_spread hos,
        sum_map_mul (k := (others.count + 1) * first.spread * rest.spread)
          (g := Alternatives.spread)]
      · ring
      · intro q hq
        rw [comp_apply, Pattern.spread, Alternatives.count_of_mem_splices hos q hq]
        ring
    · cases many with
      | true =>
        rw [Alternatives.sum_spread_alone hfirst hothers, Pattern.spread,
          Pattern.spread_eq_one hfirst, Alternatives.spread_eq_one hothers]
        ring
      | false =>
        rw [Alternatives.eq_nil_of_asked hasked]
        simp [Pattern.spread, Pattern.spread_append, Alternatives.toList, Alternatives.spread,
          Alternatives.count]
    · rw [map_map, Pattern.spread, ← Pattern.splices_spread hrs,
        sum_map_mul (k := (others.count + 1) * (first.spread * others.spread))
          (g := Pattern.spread)]
      intro q _
      rw [comp_apply, Pattern.spread]

theorem Alternatives.splices_spread : ∀ {ps : Alternatives} {qs : List Alternatives},
    ps.splices many = some qs → (qs.map Alternatives.spread).sum = ps.spread
  | .nil, _, h => by simp [Alternatives.splices] at h
  | .cons p rest, qs, h => by
    obtain ⟨ps, hps, rfl⟩ | ⟨-, rs, hrs, rfl⟩ := Alternatives.splices_cons h
    · rw [map_map, Alternatives.spread, ← Pattern.splices_spread hps,
        sum_map_mul (k := rest.spread) (g := Pattern.spread), Nat.mul_comm]
      intro q _
      rw [comp_apply, Alternatives.spread, Nat.mul_comm]
    · rw [map_map, Alternatives.spread, ← Alternatives.splices_spread hrs,
        sum_map_mul (k := p.spread) (g := Alternatives.spread)]
      intro q _
      rw [comp_apply, Alternatives.spread]

end

/-! ## Patterns without groups -/

theorem Pattern.meaning_eq_text : ∀ {p : Pattern}, p.splices true = none →
    p.splices false = none → p.meaning = [p.text]
  | .nil, _, _ => by rw [Pattern.meaning]; rfl
  | .atom a rest, hmany, hone => by
    rw [Pattern.meaning, Pattern.meaning_eq_text (Pattern.splices_atom_none hmany)
      (Pattern.splices_atom_none hone)]
    rfl
  | .group first others rest, hmany, hone => by
    obtain ⟨-, -, hasked, -⟩ := Pattern.splices_group_none hmany
    obtain ⟨-, -, hnot, -⟩ := Pattern.splices_group_none hone
    rw [Alternatives.eq_nil_of_not_asked hasked] at hnot
    exact absurd rfl hnot

end Evener.GlobPattern
