/-
  Refusing a fence rewires what was saved above it; the other calls leave the fences alone.
-/
import Evener.Hubcore.FenceReleases

namespace Evener.Hubcore

open Evener.Lib Function Option
open List hiding lookup

variable {α : Type} {aliases : List String} {i : Nat} {x : String} {r : ResumeLocks}
  {g f : ForceStopFence} {w : World}

/-! ## Refusing -/

/-- What a fence is after another one was refused. -/
def refused (r : ResumeLocks) (i : Nat) (f : ForceStopFence) (j : Nat) (g : ForceStopFence) :
    ForceStopFence :=
  if j = i then { g with rejected := true }
  else if j ∈ r.held then f.retire g
  else g

theorem refused_same (r : ResumeLocks) (i : Nat) (f : ForceStopFence) (j : Nat)
    (g : ForceStopFence) : (refused r i f j g).aliases = g.aliases ∧
      (refused r i f j g).sequence = g.sequence ∧ (refused r i f j g).finished = g.finished ∧
      (refused r i f j g).rejected = (decide (j = i) || g.rejected) := by
  unfold refused
  by_cases hj : j = i
  · simp [hj]
  · by_cases hheld : j ∈ r.held
    · simp [hj, hheld, ForceStopFence.retire]
    · simp [hj, hheld]

structure Rejects (r r' : ResumeLocks) (i : Nat) (f : ForceStopFence) : Prop where
  fences : r'.fences = r.fences.mapIdx (refused r i f)
  held : r'.held = r.held
  sequence : r'.sequence = r.sequence
  stopping : ∀ x, (r'.recovery x).stopping = (r.recovery x).stopping
  epoch : ∀ x, (r'.recovery x).epoch = (r.recovery x).epoch
  last : ∀ x, (r'.recovery x).lastRecoverySequence =
    if x ∈ f.aliases ∧ (r.recovery x).lastRecoverySequence = f.sequence then f.previous x
    else (r.recovery x).lastRecoverySequence

theorem reject_spec (hf : r.At i f) (hopen : f.finished = false) (hkept : f.rejected = false)
    (hnodup : f.aliases.Nodup) : Rejects r (r.reject i) i f := by
  have hreject : r.reject i =
      { r with
        recovery := ResumeLocks.each f.aliases (fun id state =>
          if state.lastRecoverySequence = f.sequence then
            { state with lastRecoverySequence := f.previous id }
          else state) r.recovery
        fences := r.fences.mapIdx (refused r i f) } := by
    unfold ResumeLocks.reject
    rw [show r.fences[i]? = some f from hf]
    dsimp only
    rw [hkept, hopen]
    rfl
  rw [hreject]
  refine ⟨rfl, rfl, rfl, fun x => ?_, fun x => ?_, fun x => ?_⟩ <;> dsimp only <;>
    rw [ResumeLocks.each_apply hnodup] <;> by_cases hx : x ∈ f.aliases <;>
    by_cases hlast : (r.recovery x).lastRecoverySequence = f.sequence <;> simp [hx, hlast]

/-- What a fence saved once the fence below it is gone. -/
theorem greatest_without {S : Set Nat} {m a p : Nat} (hm : IsGreatest (insert 0 S) m)
    (ha : m = a → IsGreatest (insert 0 { v ∈ S | v < a }) p) :
    IsGreatest (insert 0 (S \ {a})) (if m = a then p else m) := by
  split
  · next heq =>
    have ha := ha heq
    subst heq
    have hsame : { v ∈ S | v < m } = S \ {m} := by
      ext v
      rw [Set.mem_sdiff, Set.mem_singleton_iff, Set.mem_ofPred_eq]
      constructor
      · exact fun h => ⟨h.1, Nat.ne_of_lt h.2⟩
      · exact fun h => ⟨h.1, Nat.lt_of_le_of_ne (hm.2 (Or.inr h.1)) h.2⟩
    rwa [hsame] at ha
  · next hne =>
    refine ⟨?_, fun v hv => ?_⟩
    · rcases hm.1 with rfl | hmem
      · exact Or.inl rfl
      · exact Or.inr ⟨hmem, hne⟩
    · rcases hv with rfl | hv
      · exact Nat.zero_le _
      · exact hm.2 (Or.inr hv.1)

/-- Nothing is published above a sequence that is the greatest below another one. -/
theorem Fenced.unpublished_of_saved (hw : Fenced w) (hf : w.locks.At i f) {bound : Nat}
    (hun : w.Unpublished x bound)
    (hsaved : IsGreatest (insert 0 { v ∈ w.standing x | v < bound }) f.sequence) :
    w.Unpublished x f.sequence := by
  intro j g hg hxg hkept hdone
  have hstands : w.finishedAt j ∈ w.standing x := by
    refine ⟨j, g, hg, hxg, hkept, ?_⟩
    rw [World.value, hdone]
    rfl
  have hle := hsaved.2 (Or.inr ⟨hstands, hun j g hg hxg hkept hdone⟩)
  exact Nat.lt_of_le_of_ne hle (hw.apart j i g f hg hf hdone)

theorem Fenced.rejected (hw : Fenced w) (hf : w.locks.At i f) (hopen : f.finished = false)
    (hkeptf : f.rejected = false) (h : Rejects w.locks r i f) : Fenced { w with locks := r } := by
  obtain ⟨hfences, hheld, hseq, hstopping, hepoch, hlast⟩ := h
  have hat : ∀ j g, r.At j g ↔ ∃ g₀, w.locks.At j g₀ ∧ refused w.locks i f j g₀ = g := by
    intro j g
    unfold ResumeLocks.At
    rw [hfences, getElem?_mapIdx, map_eq_some_iff]
  have hstanding : ∀ x, World.standing { w with locks := r } x =
      if x ∈ f.aliases then w.standing x \ {f.sequence} else w.standing x := by
    intro x
    ext v
    have hmem : v ∈ World.standing { w with locks := r } x ↔
        ∃ j g, w.locks.At j g ∧ x ∈ g.aliases ∧ g.rejected = false ∧ j ≠ i ∧ v = w.value j g := by
      unfold World.standing
      simp only [hat, Set.mem_ofPred_eq]
      constructor
      · rintro ⟨j, g, ⟨g₀, hg₀, rfl⟩, hxg, hkept, rfl⟩
        obtain ⟨haliases, hsequence, hfinished, hrejected⟩ := refused_same w.locks i f j g₀
        rw [hrejected, Bool.or_eq_false_iff] at hkept
        refine ⟨j, g₀, hg₀, haliases ▸ hxg, hkept.2, of_decide_eq_false hkept.1, ?_⟩
        show (if (refused w.locks i f j g₀).finished then w.finishedAt j
          else (refused w.locks i f j g₀).sequence) = _
        rw [hfinished, hsequence]
        rfl
      · rintro ⟨j, g, hg, hxg, hkept, hj, rfl⟩
        obtain ⟨haliases, hsequence, hfinished, hrejected⟩ := refused_same w.locks i f j g
        refine ⟨j, _, ⟨g, hg, rfl⟩, haliases.symm ▸ hxg, ?_, ?_⟩
        · rw [hrejected, hkept, decide_eq_false hj]
          rfl
        · show _ = (if (refused w.locks i f j g).finished then w.finishedAt j
            else (refused w.locks i f j g).sequence)
          rw [hfinished, hsequence]
          rfl
    have hmine : f.sequence = w.value i f := by
      rw [World.value, hopen]
      rfl
    rw [hmem]
    by_cases hx : x ∈ f.aliases
    · rw [if_pos hx, Set.mem_sdiff, Set.mem_singleton_iff]
      constructor
      · rintro ⟨j, g, hg, hxg, hkept, hj, rfl⟩
        exact ⟨⟨j, g, hg, hxg, hkept, rfl⟩, hw.value_ne hf hg hj⟩
      · rintro ⟨⟨j, g, hg, hxg, hkept, rfl⟩, hne⟩
        refine ⟨j, g, hg, hxg, hkept, ?_, rfl⟩
        rintro rfl
        obtain rfl : f = g := some.inj (hf.symm.trans hg)
        exact hne hmine.symm
    · rw [if_neg hx]
      constructor
      · rintro ⟨j, g, hg, hxg, hkept, _, rfl⟩
        exact ⟨j, g, hg, hxg, hkept, rfl⟩
      · rintro ⟨j, g, hg, hxg, hkept, rfl⟩
        refine ⟨j, g, hg, hxg, hkept, ?_, rfl⟩
        rintro rfl
        obtain rfl : f = g := some.inj (hf.symm.trans hg)
        exact hx hxg
  have hunpublished : ∀ x n, World.Unpublished { w with locks := r } x n → w.Unpublished x n := by
    intro x n hun j g hg hxg hkept hdone
    obtain ⟨haliases, _, hfinished, hrejected⟩ := refused_same w.locks i f j g
    have hj : j ≠ i := by
      rintro rfl
      obtain rfl : f = g := some.inj (hf.symm.trans hg)
      rw [hopen] at hdone
      cases hdone
    refine hun j _ ((hat _ _).mpr ⟨g, hg, rfl⟩) (haliases.symm ▸ hxg) ?_ (hfinished.trans hdone)
    rw [hrejected, hkept, decide_eq_false hj]
    rfl
  refine ⟨fun j g hg => ?_, fun j => ?_, fun j k g g' hg hg' hjk => ?_, fun j g hg => ?_,
    fun j g hg hdone => ?_, fun j k g g' hg hg' hdone => ?_, fun x => ?_, fun x => ?_, fun x => ?_,
    fun j g hg hlive hkept x hx hun => ?_⟩
  · obtain ⟨g₀, hg₀, rfl⟩ := (hat j g).mp hg
    rw [(refused_same w.locks i f j g₀).1]
    exact hw.nodup j g₀ hg₀
  · have hold := hw.held j
    unfold World.unfinished at hold ⊢
    show j ∈ r.held ↔ (r.fences[j]?.any fun f => !f.finished) = true
    rw [hheld, hold, hfences, getElem?_mapIdx, Option.any_map]
    simp only [fun g => (refused_same w.locks i f j g).2.2.1]
  · obtain ⟨g₀, hg₀, rfl⟩ := (hat j g).mp hg
    obtain ⟨g₁, hg₁, rfl⟩ := (hat k g').mp hg'
    rw [(refused_same w.locks i f j g₀).2.1, (refused_same w.locks i f k g₁).2.1]
    exact hw.ordered j k g₀ g₁ hg₀ hg₁ hjk
  · obtain ⟨g₀, hg₀, rfl⟩ := (hat j g).mp hg
    rw [(refused_same w.locks i f j g₀).2.1]
    show 0 < g₀.sequence ∧ g₀.sequence ≤ r.sequence
    rw [hseq]
    exact hw.taken j g₀ hg₀
  · obtain ⟨g₀, hg₀, rfl⟩ := (hat j g).mp hg
    rw [(refused_same w.locks i f j g₀).2.2.1] at hdone
    rw [(refused_same w.locks i f j g₀).2.1]
    show g₀.sequence < w.finishedAt j ∧ w.finishedAt j ≤ r.sequence
    rw [hseq]
    exact hw.finishes j g₀ hg₀ hdone
  · obtain ⟨g₀, hg₀, rfl⟩ := (hat j g).mp hg
    obtain ⟨g₁, hg₁, rfl⟩ := (hat k g').mp hg'
    rw [(refused_same w.locks i f j g₀).2.2.1] at hdone
    rw [(refused_same w.locks i f k g₁).2.1]
    exact hw.apart j k g₀ g₁ hg₀ hg₁ hdone
  · show (r.recovery x).stopping = r.fences.countP _
    rw [hstopping, hfences, hw.stopping, countP_mapIdx (q := ForceStopFence.holds x)]
    intro j g _
    obtain ⟨haliases, _, hfinished, _⟩ := refused_same w.locks i f j g
    rw [ForceStopFence.holds, hfinished, haliases]
    rfl
  · show (r.recovery x).epoch = w.invalidated x + r.fences.countP _
    rw [hepoch, hfences, hw.epoch, countP_mapIdx (q := ForceStopFence.published x)]
    intro j g hg
    obtain ⟨haliases, _, hfinished, hrejected⟩ := refused_same w.locks i f j g
    rw [ForceStopFence.published, ForceStopFence.published, hfinished, haliases, hrejected]
    by_cases hj : j = i
    · subst hj
      obtain rfl : f = g := some.inj (hf.symm.trans hg)
      rw [hopen]
      rfl
    · rw [decide_eq_false hj, Bool.false_or]
  · show IsGreatest _ (r.recovery x).lastRecoverySequence
    rw [hstanding, hlast]
    by_cases hx : x ∈ f.aliases
    · rw [if_pos hx]
      have hall : { v ∈ w.standing x | v < w.locks.sequence + 1 } = w.standing x := by
        ext v
        exact ⟨fun h => h.1, fun h => ⟨h, Nat.lt_succ_of_le (hw.standing_le h).2⟩⟩
      have hlater : w.Unpublished x (w.locks.sequence + 1) := fun j g hg _ _ hdone =>
        Nat.lt_succ_of_le (hw.finishes j g hg hdone).2
      have hgreatest := greatest_without (hw.last x) (p := f.previous x) fun htop =>
        hw.previous i f hf hopen hkeptf x hx <|
          hw.unpublished_of_saved hf hlater (by rw [hall, ← htop]; exact hw.last x)
      simpa only [hx, true_and] using hgreatest
    · rw [if_neg hx, if_neg fun h => hx h.1]
      exact hw.last x
  · obtain ⟨g₀, hg₀, rfl⟩ := (hat j g).mp hg
    obtain ⟨haliases, hsequence, hfinished, hrejected⟩ := refused_same w.locks i f j g₀
    rw [hrejected, Bool.or_eq_false_iff] at hkept
    rw [haliases] at hx
    rw [hfinished] at hlive
    rw [hsequence] at hun ⊢
    have hun := hunpublished x _ hun
    have hold := hw.previous j g₀ hg₀ hlive hkept.2 x hx hun
    have hprevious : (refused w.locks i f j g₀).previous x =
        if x ∈ f.aliases ∧ g₀.previous x = f.sequence then f.previous x else g₀.previous x := by
      have hjheld : j ∈ w.locks.held := by
        rw [hw.held]
        unfold World.unfinished
        rw [show w.locks.fences[j]? = some g₀ from hg₀]
        simp [hlive]
      unfold refused
      rw [if_neg (of_decide_eq_false hkept.1), if_pos hjheld]
      exact f.retire_previous g₀ x
    rw [hprevious, hstanding]
    by_cases hxf : x ∈ f.aliases
    · have hsame : { v ∈ w.standing x \ {f.sequence} | v < g₀.sequence } =
          { v ∈ w.standing x | v < g₀.sequence } \ {f.sequence} := by
        ext v
        simp only [Set.mem_sdiff, Set.mem_singleton_iff, Set.mem_ofPred_eq]
        exact ⟨fun h => ⟨⟨h.1.1, h.2⟩, h.1.2⟩, fun h => ⟨⟨h.1.1, h.2⟩, h.1.2⟩⟩
      have hgreatest := greatest_without hold (a := f.sequence) (p := f.previous x) fun hsaved => by
        have hunf := hw.unpublished_of_saved hf hun (hsaved ▸ hold)
        have hbelow : f.sequence < g₀.sequence := by
          have hpos := (hw.taken i f hf).1
          rcases (hsaved ▸ hold).1 with hzero | hmem
          · omega
          · exact hmem.2
        have hsame' : { v ∈ { v ∈ w.standing x | v < g₀.sequence } | v < f.sequence } =
            { v ∈ w.standing x | v < f.sequence } := by
          ext v
          simp only [Set.mem_ofPred_eq]
          exact ⟨fun h => ⟨h.1.1, h.2⟩, fun h => ⟨⟨h.1, h.2.trans hbelow⟩, h.2⟩⟩
        rw [hsame']
        exact hw.previous i f hf hopen hkeptf x hxf hunf
      rw [if_pos hxf, hsame]
      simpa only [hxf, true_and] using hgreatest
    · rw [if_neg hxf, if_neg fun h => hxf h.1]
      exact hold

/-! ## Other calls -/

theorem foldl_keeps {β γ : Type} {f : (String → α) → β → String → α} (φ : α → γ)
    (h : ∀ m b x, φ (f m b x) = φ (m x)) (l : List β) (m : String → α) (x : String) :
    φ (l.foldl f m x) = φ (m x) := by
  induction l generalizing m with
  | nil => rfl
  | cons b l ih => rw [foldl_cons, ih, h]

theorem update_keeps {γ : Type} (φ : α → γ) {m : String → α} {id : String} {a : α}
    (h : φ a = φ (m id)) (x : String) : φ (Function.update m id a x) = φ (m x) := by
  by_cases hx : x = id
  · rw [hx, update_self, h]
  · rw [update_of_ne hx]

/-- What admission depends on. -/
def SessionRecoveryState.admission (state : SessionRecoveryState) : Nat × Nat × Int :=
  (state.epoch, state.lastRecoverySequence, state.stopping)

/-- The fences and what admission depends on stay. -/
structure Same (r r' : ResumeLocks) : Prop where
  fences : r'.fences = r.fences
  held : r'.held = r.held
  sequence : r'.sequence = r.sequence
  admission : ∀ x, (r'.recovery x).admission = (r.recovery x).admission

theorem same_settleLocked (r : ResumeLocks) (resume : Nat) : Same r (r.settleLocked resume) := by
  unfold ResumeLocks.settleLocked
  repeat' split
  all_goals exact ⟨rfl, rfl, rfl, fun _ => rfl⟩

theorem same_launch (r : ResumeLocks) (resume : Nat) (f : ActiveResume → ActiveResume) :
    Same r ((r.modifyResume resume f).settleLocked resume) :=
  have h := same_settleLocked (r.modifyResume resume f) resume
  ⟨h.fences, h.held, h.sequence, h.admission⟩

theorem same_registerResume (r : ResumeLocks) (err : Option String) (target : String)
    (aliases : List String) (epochs : List (String × Nat)) :
    Same r (r.registerResume err target aliases epochs).2 := by
  unfold ResumeLocks.registerResume
  dsimp only
  repeat' split
  all_goals exact ⟨rfl, rfl, rfl, fun _ => rfl⟩

theorem same_beforeLaunch (r : ResumeLocks) (resume : Nat) : Same r (r.beforeLaunch resume) := by
  unfold ResumeLocks.beforeLaunch
  repeat' split
  all_goals exact ⟨rfl, rfl, rfl, fun _ => rfl⟩

theorem same_persistForceStopWithOwner (r : ResumeLocks) (aliases : List String)
    (sessionID : String) (owner : Target) (id : String) (write : Write) :
    Same r (r.persistForceStopWithOwner aliases sessionID owner id write).2 := by
  unfold ResumeLocks.persistForceStopWithOwner
  split
  · exact ⟨rfl, rfl, rfl, fun _ => rfl⟩
  · dsimp only
    split
    · exact ⟨rfl, rfl, rfl, fun _ => rfl⟩
    · split
      · exact ⟨rfl, rfl, rfl, fun _ => rfl⟩
      · split
        · refine ⟨rfl, rfl, rfl, fun x => ?_⟩
          exact foldl_keeps SessionRecoveryState.admission (fun m b y =>
            @update_keeps _ _ SessionRecoveryState.admission m b _ (by rfl) y) _ _ x
        · exact ⟨rfl, rfl, rfl, fun _ => rfl⟩

theorem same_confirmForceStop (r : ResumeLocks) (sessionID : String) (write : Write) :
    Same r (r.confirmForceStop sessionID write).2 := by
  unfold ResumeLocks.confirmForceStop
  dsimp only
  repeat' split
  all_goals exact ⟨rfl, rfl, rfl, fun _ => rfl⟩

theorem same_explicitResumeCompleted (r : ResumeLocks) (sessionID : String) (epoch : Nat)
    (write : Write) : Same r (r.explicitResumeCompleted sessionID epoch write).2 := by
  unfold ResumeLocks.explicitResumeCompleted
  dsimp only
  repeat' split
  all_goals exact ⟨rfl, rfl, rfl, fun _ => rfl⟩

theorem same_settle (r : ResumeLocks) : Same r r.settle := by
  unfold ResumeLocks.settle
  split
  · exact ⟨rfl, rfl, rfl, fun _ => rfl⟩
  · refine ⟨rfl, rfl, rfl, fun x => ?_⟩
    refine foldl_keeps SessionRecoveryState.admission (fun m b y => ?_) _ _ x
    by_cases hgroup : (m b.1).group = b.2.group
    · rw [if_pos hgroup]
      exact update_keeps _ (by rfl) y
    · rw [if_neg hgroup]
  · refine ⟨rfl, rfl, rfl, fun x => ?_⟩
    refine foldl_keeps SessionRecoveryState.admission (fun m b y => ?_) _ _ x
    by_cases hchanged : (m b.1).group ≠ b.2.group ∨ (m b.1).epoch ≠ b.2.epoch ∨
        (m b.1).stopping ≠ 0
    · rw [if_pos hchanged]
    · rw [if_neg hchanged]
      exact update_keeps _ (by rfl) y

theorem Same.frame {w : World} (h : Same w.locks r) : Frame w { w with locks := r } := by
  have hfields := fun x => Prod.ext_iff.mp (h.admission x)
  refine ⟨h.fences, h.held, h.sequence, rfl, fun x => ?_, fun x => ?_, fun x => ?_⟩
  · exact (Prod.ext_iff.mp (hfields x).2).2
  · exact (Prod.ext_iff.mp (hfields x).2).1
  · exact congrArg (· + _) (hfields x).1

end Evener.Hubcore
