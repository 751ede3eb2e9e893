/-
  Beginning and releasing a fence: what is saved above a release is worthless.
-/
import Evener.Hubcore.Fenced

namespace Evener.Hubcore

open Evener.Lib Function Option
open List hiding lookup

variable {aliases : List String} {i : Nat} {x : String} {r : ResumeLocks} {g f : ForceStopFence}
  {w : World}

/-! ## Beginning -/

structure Begins (r r' : ResumeLocks) (aliases : List String) (g : ForceStopFence) : Prop where
  fences : r'.fences = r.fences ++ [g]
  held : r'.held = r.held ++ [r.fences.length]
  sequence : r'.sequence = r.sequence + 1
  recovery : ∀ x, r'.recovery x = if x ∈ aliases then
    { r.recovery x with
      lastRecoverySequence := r.sequence + 1
      stopping := (r.recovery x).stopping + 1 }
    else r.recovery x
  fence : g.aliases = aliases ∧ g.sequence = r.sequence + 1 ∧ g.rejected = false ∧
    g.finished = false ∧ ∀ x ∈ aliases, g.previous x = (r.recovery x).lastRecoverySequence

theorem beginForceStopLocked_spec (r : ResumeLocks) (hnodup : aliases.Nodup) :
    ∃ g, Begins r (r.beginForceStopLocked aliases) aliases g := by
  have hfold := ResumeLocks.overwrite_fold hnodup (r.sequence + 1) (r.recovery, fun _ => 0)
  refine ⟨_, rfl, rfl, rfl, fun x => (hfold x).1, rfl, rfl, rfl, rfl, fun x hx => ?_⟩
  exact (hfold x).2.trans (if_pos hx)

theorem Fenced.begun (hw : Fenced w) (hnodup : aliases.Nodup) (h : Begins w.locks r aliases g) :
    Fenced { w with locks := r } := by
  obtain ⟨hfences, hheld, hseq, hstate, haliases, hsequence, hrejected, hfinished, hprevious⟩ := h
  have hat : ∀ i f, r.At i f ↔ w.locks.At i f ∨ i = w.locks.fences.length ∧ f = g := by
    intro i f
    unfold ResumeLocks.At
    rw [hfences]
    exact getElem?_concat_iff
  have hlt : ∀ i f, w.locks.At i f → i < w.locks.fences.length := by
    intro i f hf
    exact (List.getElem?_eq_some_iff.mp hf).1
  have hstanding : ∀ x, World.standing { w with locks := r } x =
      if x ∈ aliases then insert (w.locks.sequence + 1) (w.standing x) else w.standing x := by
    intro x
    ext v
    unfold World.standing World.value
    simp only [hat, Set.mem_ofPred_eq]
    by_cases hx : x ∈ aliases
    · rw [if_pos hx, Set.mem_insert_iff]
      constructor
      · rintro ⟨i, f, hf | ⟨rfl, rfl⟩, hxf, hkept, rfl⟩
        · exact Or.inr ⟨i, f, hf, hxf, hkept, rfl⟩
        · rw [hfinished, if_neg Bool.false_ne_true]
          exact Or.inl hsequence
      · rintro (rfl | ⟨i, f, hf, hxf, hkept, rfl⟩)
        · refine ⟨_, g, Or.inr ⟨rfl, rfl⟩, by rw [haliases]; exact hx, hrejected, ?_⟩
          rw [hfinished, if_neg Bool.false_ne_true, hsequence]
        · exact ⟨i, f, Or.inl hf, hxf, hkept, rfl⟩
    · rw [if_neg hx]
      constructor
      · rintro ⟨i, f, hf | ⟨rfl, rfl⟩, hxf, hkept, rfl⟩
        · exact ⟨i, f, hf, hxf, hkept, rfl⟩
        · rw [haliases] at hxf
          exact absurd hxf hx
      · rintro ⟨i, f, hf, hxf, hkept, rfl⟩
        exact ⟨i, f, Or.inl hf, hxf, hkept, rfl⟩
  have hbelow : ∀ x n, n ≤ w.locks.sequence + 1 →
      { v ∈ World.standing { w with locks := r } x | v < n } = { v ∈ w.standing x | v < n } := by
    intro x n hn
    ext v
    rw [hstanding]
    simp only [Set.mem_ofPred_eq]
    split
    · rw [Set.mem_insert_iff]
      constructor
      · rintro ⟨rfl | hv, hlt⟩
        · omega
        · exact ⟨hv, hlt⟩
      · exact fun h => ⟨Or.inr h.1, h.2⟩
    · rfl
  refine ⟨fun i f hf => ?_, fun i => ?_, fun i j f f' hf hf' hij => ?_, fun i f hf => ?_,
    fun i f hf hf' => ?_, fun i j f f' hf hf' hdone => ?_, fun x => ?_, fun x => ?_, fun x => ?_,
    fun i f hf hopen hkept x hx hun => ?_⟩
  · rcases (hat i f).mp hf with hf | ⟨_, rfl⟩
    · exact hw.nodup i f hf
    · rw [haliases]
      exact hnodup
  · show i ∈ r.held ↔ (r.fences[i]?.any fun f => !f.finished) = true
    have hold := hw.held i
    unfold World.unfinished at hold
    rw [hheld, hfences, mem_append, hold, mem_singleton, Option.any_eq_true,
      Option.any_eq_true]
    simp only [getElem?_concat_iff]
    constructor
    · rintro (⟨f, hf, hopen⟩ | rfl)
      · exact ⟨f, Or.inl hf, hopen⟩
      · exact ⟨g, Or.inr ⟨rfl, rfl⟩, by rw [hfinished]; rfl⟩
    · rintro ⟨f, hf | ⟨rfl, _⟩, hopen⟩
      · exact Or.inl ⟨f, hf, hopen⟩
      · exact Or.inr rfl
  · rcases (hat i f).mp hf with hf | ⟨rfl, rfl⟩ <;> rcases (hat j f').mp hf' with hf' | ⟨rfl, rfl⟩
    · exact hw.ordered i j f f' hf hf' hij
    · have := hw.taken i f hf
      omega
    · have := hlt j f' hf'
      omega
    · omega
  · show 0 < f.sequence ∧ f.sequence ≤ r.sequence
    rw [hseq]
    rcases (hat i f).mp hf with hf | ⟨_, rfl⟩
    · have := hw.taken i f hf
      omega
    · omega
  · show f.sequence < w.finishedAt i ∧ w.finishedAt i ≤ r.sequence
    rw [hseq]
    rcases (hat i f).mp hf with hf | ⟨_, rfl⟩
    · have := hw.finishes i f hf hf'
      omega
    · rw [hfinished] at hf'
      cases hf'
  · show w.finishedAt i ≠ f'.sequence
    rcases (hat i f).mp hf with hf | ⟨_, rfl⟩
    · rcases (hat j f').mp hf' with hf' | ⟨_, rfl⟩
      · exact hw.apart i j f f' hf hf' hdone
      · have := hw.finishes i f hf hdone
        omega
    · rw [hfinished] at hdone
      cases hdone
  · show (r.recovery x).stopping = r.fences.countP _
    have hholds : g.holds x = decide (x ∈ aliases) := by
      rw [ForceStopFence.holds, hfinished, haliases]
      rfl
    have hold := hw.stopping x
    rw [hfences, hstate, countP_append, countP_singleton, hholds]
    by_cases hx : x ∈ aliases
    · simp only [hx, decide_true, if_true]
      omega
    · simp only [hx, decide_false, Bool.false_eq_true, if_false]
      omega
  · show (r.recovery x).epoch = w.invalidated x + r.fences.countP _
    have hpublished : g.published x = false := by
      rw [ForceStopFence.published, hfinished]
      rfl
    have hold := hw.epoch x
    rw [hfences, hstate, countP_append, countP_singleton, hpublished,
      if_neg Bool.false_ne_true]
    split
    · exact hold
    · exact hold
  · show IsGreatest _ (r.recovery x).lastRecoverySequence
    rw [hstanding, hstate]
    split
    · exact greatest_top fun v hv => (hw.standing_le hv).2.trans (Nat.le_succ _)
    · exact hw.last x
  · rcases (hat i f).mp hf with hf | ⟨_, rfl⟩
    · have hsmall := (hw.taken i f hf).2
      rw [hbelow x _ (by omega)]
      exact hw.previous i f hf hopen hkept x hx fun i' f' hf' => hun i' f' ((hat _ _).mpr (Or.inl hf'))
    · rw [haliases] at hx
      rw [hprevious x hx, hsequence, hbelow x _ (Nat.le_refl _)]
      have hall : { v ∈ w.standing x | v < w.locks.sequence + 1 } = w.standing x := by
        ext v
        exact ⟨fun h => h.1, fun h => ⟨h, Nat.lt_succ_of_le (hw.standing_le h).2⟩⟩
      rw [hall]
      exact hw.last x

/-! ## Releasing -/

/-- No other fence stands for a held fence's sequence. -/
theorem Fenced.value_ne (hw : Fenced w) {j : Nat} (hf : w.locks.At i f) (hg : w.locks.At j g)
    (hne : j ≠ i) : w.value j g ≠ f.sequence := by
  unfold World.value
  split
  · next hdone => exact hw.apart j i g f hg hf hdone
  · rcases Nat.lt_or_gt_of_ne hne with hlt | hlt
    · exact Nat.ne_of_lt (hw.ordered j i g f hg hf hlt)
    · exact Nat.ne_of_gt (hw.ordered i j f g hf hg hlt)

structure Finishes (r r' : ResumeLocks) (i : Nat) (f : ForceStopFence) : Prop where
  fences : r'.fences = r.fences.set i { f with finished := true }
  held : r'.held = r.held.filter (· ≠ i)
  sequence : r'.sequence = r.sequence + 1
  stopping : ∀ x, (r'.recovery x).stopping =
    if x ∈ f.aliases then (r.recovery x).stopping - 1 else (r.recovery x).stopping
  epoch : ∀ x, (r'.recovery x).epoch =
    if x ∈ f.aliases ∧ f.rejected = false then (r.recovery x).epoch + 1 else (r.recovery x).epoch
  last : ∀ x, (r'.recovery x).lastRecoverySequence =
    if x ∈ f.aliases ∧ f.rejected = false then r.sequence + 1
    else (r.recovery x).lastRecoverySequence

theorem finish_spec (hf : r.At i f) (hopen : f.finished = false) (hnodup : f.aliases.Nodup)
    (stopped : Bool) : Finishes r (r.finish i stopped) i f := by
  have hfinish : r.finish i stopped =
      { r with
        fences := r.fences.set i { f with finished := true }
        held := r.held.filter (· ≠ i)
        sequence := r.sequence + 1
        recovery := ResumeLocks.each f.aliases (fun _ state =>
          { state with
            stopping := state.stopping - 1
            epoch := if f.rejected then state.epoch else state.epoch + 1
            lastRecoverySequence :=
              if f.rejected then state.lastRecoverySequence else r.sequence + 1
            resumeRequired := state.resumeRequired || stopped }) r.recovery } := by
    unfold ResumeLocks.finish
    rw [show r.fences[i]? = some f from hf]
    dsimp only
    rw [hopen]
    rfl
  rw [hfinish]
  refine ⟨rfl, rfl, rfl, fun x => ?_, fun x => ?_, fun x => ?_⟩ <;> dsimp only <;>
    rw [ResumeLocks.each_apply hnodup] <;> by_cases hx : x ∈ f.aliases <;>
    cases hrejected : f.rejected <;> simp [hx]

theorem Fenced.finished (hw : Fenced w) (hf : w.locks.At i f) (hopen : f.finished = false)
    (h : Finishes w.locks r i f) :
    Fenced { w with
      locks := r
      finishedAt := Function.update w.finishedAt i (w.locks.sequence + 1) } := by
  obtain ⟨hfences, hheld, hseq, hstopping, hepoch, hlast⟩ := h
  have hat : ∀ j g, r.At j g ↔
      j = i ∧ g = { f with finished := true } ∨ j ≠ i ∧ w.locks.At j g := by
    intro j g
    unfold ResumeLocks.At
    rw [hfences]
    exact getElem?_set_iff hf
  have hself : Function.update w.finishedAt i (w.locks.sequence + 1) i = w.locks.sequence + 1 :=
    update_self ..
  have hother : ∀ j, j ≠ i →
      Function.update w.finishedAt i (w.locks.sequence + 1) j = w.finishedAt j :=
    fun j hj => update_of_ne hj ..
  generalize Function.update w.finishedAt i (w.locks.sequence + 1) = finishedAt at hself hother ⊢
  have hstanding : ∀ x, World.standing { w with locks := r, finishedAt := finishedAt } x =
      if x ∈ f.aliases ∧ f.rejected = false then
        insert (w.locks.sequence + 1) (w.standing x \ {f.sequence})
      else w.standing x := by
    intro x
    ext v
    unfold World.standing
    simp only [hat, Set.mem_ofPred_eq]
    have hvalue : ∀ j g, j ≠ i →
        World.value { w with locks := r, finishedAt := finishedAt } j g = w.value j g := by
      intro j g hj
      show (if g.finished then finishedAt j else g.sequence) = _
      rw [hother j hj]
      rfl
    have hnow : World.value { w with locks := r, finishedAt := finishedAt } i
        { f with finished := true } = w.locks.sequence + 1 := hself
    by_cases hx : x ∈ f.aliases ∧ f.rejected = false
    · rw [if_pos hx, Set.mem_insert_iff, Set.mem_sdiff, Set.mem_singleton_iff, Set.mem_ofPred_eq]
      constructor
      · rintro ⟨j, g, ⟨rfl, rfl⟩ | ⟨hj, hg⟩, hxg, hkept, rfl⟩
        · exact Or.inl hnow
        · rw [hvalue j g hj]
          exact Or.inr ⟨⟨j, g, hg, hxg, hkept, rfl⟩, hw.value_ne hf hg hj⟩
      · rintro (rfl | ⟨⟨j, g, hg, hxg, hkept, rfl⟩, hne⟩)
        · exact ⟨i, _, Or.inl ⟨rfl, rfl⟩, hx.1, hx.2, hnow.symm⟩
        · have hj : j ≠ i := by
            rintro rfl
            obtain rfl : f = g := some.inj (hf.symm.trans hg)
            refine hne ?_
            rw [World.value, hopen]
            rfl
          exact ⟨j, g, Or.inr ⟨hj, hg⟩, hxg, hkept, (hvalue j g hj).symm⟩
    · rw [if_neg hx, Set.mem_ofPred_eq]
      constructor
      · rintro ⟨j, g, ⟨rfl, rfl⟩ | ⟨hj, hg⟩, hxg, hkept, rfl⟩
        · exact absurd ⟨hxg, hkept⟩ hx
        · exact ⟨j, g, hg, hxg, hkept, hvalue j g hj⟩
      · rintro ⟨j, g, hg, hxg, hkept, rfl⟩
        have hj : j ≠ i := by
          rintro rfl
          obtain rfl : f = g := some.inj (hf.symm.trans hg)
          exact hx ⟨hxg, hkept⟩
        exact ⟨j, g, Or.inr ⟨hj, hg⟩, hxg, hkept, (hvalue j g hj).symm⟩
  have hcount : ∀ p : ForceStopFence → Bool, r.fences.countP p + (if p f then 1 else 0) =
      w.locks.fences.countP p + if p { f with finished := true } then 1 else 0 := by
    intro p
    obtain ⟨hi, hget⟩ := List.getElem?_eq_some_iff.mp hf
    have hset := @countP_set _ p w.locks.fences i { f with finished := true } hi
    have hpos : (if p f then 1 else 0) ≤ w.locks.fences.countP p := by
      split
      · next hp => exact countP_pos_iff.mpr ⟨f, mem_of_getElem? hf, hp⟩
      · exact Nat.zero_le _
    rw [hget] at hset
    rw [hfences, hset]
    omega
  refine ⟨fun j g hg => ?_, fun j => ?_, fun j k g g' hg hg' hjk => ?_, fun j g hg => ?_,
    fun j g hg hdone => ?_, fun j k g g' hg hg' hdone => ?_, fun x => ?_, fun x => ?_, fun x => ?_,
    fun j g hg hlive hkept x hx hun => ?_⟩
  · rcases (hat j g).mp hg with ⟨_, rfl⟩ | ⟨_, hg⟩
    · exact hw.nodup i f hf
    · exact hw.nodup j g hg
  · have hold := hw.held j
    unfold World.unfinished at hold ⊢
    show j ∈ r.held ↔ (r.fences[j]?.any fun f => !f.finished) = true
    rw [hheld, mem_filter, hold, decide_eq_true_eq, Option.any_eq_true, Option.any_eq_true]
    constructor
    · rintro ⟨⟨g, hg, hlive⟩, hj⟩
      exact ⟨g, (hat j g).mpr (Or.inr ⟨hj, hg⟩), hlive⟩
    · rintro ⟨g, hg, hlive⟩
      rcases (hat j g).mp hg with ⟨_, rfl⟩ | ⟨hj, hg⟩
      · cases hlive
      · exact ⟨⟨g, hg, hlive⟩, hj⟩
  · rcases (hat j g).mp hg with ⟨rfl, rfl⟩ | ⟨_, hg⟩ <;>
      rcases (hat k g').mp hg' with ⟨rfl, rfl⟩ | ⟨_, hg'⟩
    · omega
    · exact hw.ordered _ k f g' hf hg' hjk
    · exact hw.ordered j _ g f hg hf hjk
    · exact hw.ordered j k g g' hg hg' hjk
  · show 0 < g.sequence ∧ g.sequence ≤ r.sequence
    rw [hseq]
    rcases (hat j g).mp hg with ⟨_, rfl⟩ | ⟨_, hg⟩
    · have := hw.taken i f hf
      show 0 < f.sequence ∧ f.sequence ≤ _
      omega
    · have := hw.taken j g hg
      omega
  · show g.sequence < finishedAt j ∧ finishedAt j ≤ r.sequence
    rw [hseq]
    rcases (hat j g).mp hg with ⟨rfl, rfl⟩ | ⟨hj, hg⟩
    · have htaken := (hw.taken _ f hf).2
      rw [hself]
      exact ⟨Nat.lt_succ_of_le htaken, Nat.le_refl _⟩
    · have := hw.finishes j g hg hdone
      rw [hother j hj]
      omega
  · show finishedAt j ≠ g'.sequence
    have hsmall : g'.sequence ≤ w.locks.sequence := by
      rcases (hat k g').mp hg' with ⟨_, rfl⟩ | ⟨_, hg'⟩
      · exact (hw.taken i f hf).2
      · exact (hw.taken k g' hg').2
    rcases (hat j g).mp hg with ⟨rfl, rfl⟩ | ⟨hj, hg⟩
    · rw [hself]
      omega
    · rw [hother j hj]
      rcases (hat k g').mp hg' with ⟨rfl, rfl⟩ | ⟨_, hg'⟩
      · exact hw.apart j _ g f hg hf hdone
      · exact hw.apart j k g g' hg hg' hdone
  · show (r.recovery x).stopping = r.fences.countP _
    have hold := hw.stopping x
    have hp := hcount (ForceStopFence.holds x)
    have hholds : f.holds x = decide (x ∈ f.aliases) := by
      rw [ForceStopFence.holds, hopen]
      rfl
    have hreleased : ForceStopFence.holds x { f with finished := true } = false := rfl
    rw [hholds, hreleased, if_neg Bool.false_ne_true] at hp
    rw [hstopping]
    by_cases hx : x ∈ f.aliases
    · rw [if_pos hx]
      rw [decide_eq_true hx, if_pos rfl] at hp
      omega
    · rw [if_neg hx]
      rw [decide_eq_false hx, if_neg Bool.false_ne_true] at hp
      omega
  · show (r.recovery x).epoch = w.invalidated x + r.fences.countP _
    have hold := hw.epoch x
    have hp := hcount (ForceStopFence.published x)
    have hbefore : f.published x = false := by
      rw [ForceStopFence.published, hopen]
      rfl
    have hnow : ForceStopFence.published x { f with finished := true } =
        decide (x ∈ f.aliases ∧ f.rejected = false) := by
      unfold ForceStopFence.published
      cases f.rejected <;> simp
    rw [hbefore, hnow, if_neg Bool.false_ne_true] at hp
    rw [hepoch]
    by_cases hx : x ∈ f.aliases ∧ f.rejected = false
    · rw [if_pos hx]
      rw [decide_eq_true hx, if_pos rfl] at hp
      omega
    · rw [if_neg hx]
      rw [decide_eq_false hx, if_neg Bool.false_ne_true] at hp
      omega
  · show IsGreatest _ (r.recovery x).lastRecoverySequence
    rw [hstanding, hlast]
    split
    · exact greatest_top fun v hv => (hw.standing_le hv.1).2.trans (Nat.le_succ _)
    · exact hw.last x
  · rcases (hat j g).mp hg with ⟨_, rfl⟩ | ⟨hj, hg⟩
    · cases hlive
    · have hsmall := (hw.taken j g hg).2
      -- a publication is above every fence that is held
      have hnot : ¬ (x ∈ f.aliases ∧ f.rejected = false) := by
        intro hmine
        have hlt : finishedAt i < g.sequence :=
          hun i { f with finished := true } ((hat _ _).mpr (Or.inl ⟨rfl, rfl⟩)) hmine.1 hmine.2 rfl
        rw [hself] at hlt
        omega
      rw [hstanding, if_neg hnot]
      refine hw.previous j g hg hlive hkept x hx fun k g' hg' hxg' hkept' hdone => ?_
      have hk : k ≠ i := by
        rintro rfl
        obtain rfl : f = g' := some.inj (hf.symm.trans hg')
        rw [hopen] at hdone
        cases hdone
      have hlt : finishedAt k < g.sequence :=
        hun k g' ((hat _ _).mpr (Or.inr ⟨hk, hg'⟩)) hxg' hkept' hdone
      rw [hother k hk] at hlt
      exact hlt

end Evener.Hubcore
