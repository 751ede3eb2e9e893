/-
  Force-stop fences: neutral when refused, final when published.
-/
import Evener.Hubcore.FenceRefusals

namespace Evener.Hubcore

open Evener.Lib Function Option
open List hiding lookup

variable {α : Type} {aliases : List String} {i : Nat} {x : String} {r : ResumeLocks}
  {g f : ForceStopFence} {call : Call} {w w' : World}

/-! ## What a call can do -/

inductive Happens (w : World) : World → Prop where
  | frame {w' : World} (h : Frame w w') : Happens w w'
  | begins {r : ResumeLocks} {aliases : List String} {g : ForceStopFence}
    (hnodup : aliases.Nodup) (h : Begins w.locks r aliases g) : Happens w { w with locks := r }
  | finishes {r : ResumeLocks} {i : Nat} {f : ForceStopFence} (hf : w.locks.At i f)
    (hopen : f.finished = false) (h : Finishes w.locks r i f) :
    Happens w { w with
      locks := r
      finishedAt := Function.update w.finishedAt i (w.locks.sequence + 1) }
  | rejects {r : ResumeLocks} {i : Nat} {f : ForceStopFence} (hf : w.locks.At i f)
    (hopen : f.finished = false) (hkept : f.rejected = false) (h : Rejects w.locks r i f) :
    Happens w { w with locks := r }

theorem Frame.refl (w : World) : Frame w w :=
  ⟨rfl, rfl, rfl, rfl, fun _ => rfl, fun _ => rfl, fun _ => rfl⟩

/-! ## Overlapping resumes -/

theorem overlap_nodup (r : ResumeLocks) {fuel : Nat} {queue seen : List String}
    {actives : List Nat} (hseen : seen.Nodup) : (r.overlap fuel queue seen actives).1.Nodup := by
  induction fuel generalizing queue seen actives with
  | zero => exact hseen
  | succ fuel ih =>
    cases queue with
    | nil => exact hseen
    | cons current queue =>
      unfold ResumeLocks.overlap
      split
      · exact ih hseen
      · next hnew =>
        refine ih (nodup_append.mpr ⟨hseen, nodup_singleton _, fun a ha b hb => ?_⟩)
        rw [mem_singleton.mp hb]
        exact fun heq => hnew (heq ▸ ha)

theorem Begins.cancel {r' : ResumeLocks} (h : Begins r r' aliases g) (actives : List Nat) :
    Begins r (actives.foldl (fun r resume => r.modifyResume resume fun a =>
      { a with canceled := true }) r') aliases g := by
  induction actives generalizing r' with
  | nil => exact h
  | cons resume actives ih => exact ih ⟨h.fences, h.held, h.sequence, h.recovery, h.fence⟩

theorem happens_beginActiveResumeStop (w : World) (aliasID : String) :
    Happens w { w with locks := w.locks.beginActiveResumeStop aliasID } := by
  unfold ResumeLocks.beginActiveResumeStop
  split
  · exact .frame (.refl w)
  · have hseen : (w.locks.overlap ((w.locks.resumes.flatMap ActiveResume.aliases).length + 1)
        [aliasID] [] []).1.Nodup := overlap_nodup w.locks nodup_nil
    have hnodup : (w.locks.activeResumeOverlapLocked aliasID).1.Nodup :=
      (sortBy_perm _).nodup_iff.mpr hseen
    obtain ⟨g, hbegins⟩ := beginForceStopLocked_spec w.locks hnodup
    exact .begins hnodup (hbegins.cancel _)

/-! ## Runs of calls -/

/-- The lists of aliases have no repeats. -/
def Call.NoRepeats : Call → Prop
  | .beginForceStop aliases => aliases.Nodup
  | .invalidateResumeAdmission aliases => aliases.Nodup
  | _ => True

instance : (call : Call) → Decidable call.NoRepeats
  | .beginForceStop aliases => inferInstanceAs (Decidable aliases.Nodup)
  | .invalidateResumeAdmission aliases => inferInstanceAs (Decidable aliases.Nodup)
  | .beginActiveResumeStop _ => .isTrue trivial
  | .reject _ => .isTrue trivial
  | .finish .. => .isTrue trivial
  | .registerResume .. => .isTrue trivial
  | .beforeLaunch _ => .isTrue trivial
  | .childReaped _ => .isTrue trivial
  | .launchFinished .. => .isTrue trivial
  | .complete .. => .isTrue trivial
  | .persistForceStopWithOwner .. => .isTrue trivial
  | .confirmForceStop .. => .isTrue trivial
  | .explicitResumeCompleted .. => .isTrue trivial
  | .settle => .isTrue trivial

theorem Fenced.happens_reject (hw : Fenced w) (i : Nat) :
    Happens w { w with locks := w.locks.reject i } := by
  cases hf : w.locks.fences[i]? with
  | none =>
    have hnone : w.locks.reject i = w.locks := by
      unfold ResumeLocks.reject
      rw [hf]
    rw [hnone]
    exact .frame (.refl w)
  | some f =>
    by_cases hdone : (f.rejected || f.finished) = true
    · have hsame : w.locks.reject i = w.locks := by
        unfold ResumeLocks.reject
        rw [hf]
        exact if_pos hdone
      rw [hsame]
      exact .frame (.refl w)
    · obtain ⟨hkept, hopen⟩ := Bool.or_eq_false_iff.mp (eq_false_of_ne_true hdone)
      exact .rejects hf hopen hkept (reject_spec hf hopen hkept (hw.nodup i f hf))

theorem Fenced.happens_finish (hw : Fenced w) (i : Nat) (stopped : Bool) :
    Happens w (w.step (.finish i stopped)) := by
  cases hf : w.locks.fences[i]? with
  | none =>
    have hnone : w.step (.finish i stopped) = w := by
      have hsame : w.locks.finish i stopped = w.locks := by
        unfold ResumeLocks.finish
        rw [hf]
      have hunfinished : w.unfinished i = false := by
        rw [World.unfinished, hf]
        rfl
      unfold World.step
      dsimp only
      rw [hunfinished]
      exact congrArg (fun r => { w with locks := r }) hsame
    rw [hnone]
    exact .frame (.refl w)
  | some f =>
    cases hopen : f.finished with
    | true =>
      have hsame : w.step (.finish i stopped) = w := by
        have hsame : w.locks.finish i stopped = w.locks := by
          unfold ResumeLocks.finish
          rw [hf]
          exact if_pos hopen
        have hunfinished : w.unfinished i = false := by
          rw [World.unfinished, hf, any_some, hopen]
          rfl
        unfold World.step
        dsimp only
        rw [hunfinished]
        exact congrArg (fun r => { w with locks := r }) hsame
      rw [hsame]
      exact .frame (.refl w)
    | false =>
      have hunfinished : w.unfinished i = true := by
        rw [World.unfinished, hf, any_some, hopen]
        rfl
      have hstep : w.step (.finish i stopped) =
          { w with
            locks := w.locks.finish i stopped
            finishedAt := Function.update w.finishedAt i (w.locks.sequence + 1) } := by
        unfold World.step
        dsimp only
        rw [hunfinished]
        rfl
      rw [hstep]
      exact .finishes hf hopen (finish_spec hf hopen (hw.nodup i f hf) stopped)

theorem frame_invalidate (w : World) (hnodup : aliases.Nodup) :
    Frame w (w.step (.invalidateResumeAdmission aliases)) := by
  have happly := ResumeLocks.each_apply hnodup
    (fun _ state => { state with epoch := state.epoch + 1 }) w.locks.recovery
  refine ⟨rfl, rfl, rfl, rfl, fun x => ?_, fun x => ?_, fun x => ?_⟩
  · exact foldl_keeps SessionRecoveryState.stopping (fun m b y =>
      @update_keeps _ _ SessionRecoveryState.stopping m b _ (by rfl) y) _ _ x
  · exact foldl_keeps SessionRecoveryState.lastRecoverySequence (fun m b y =>
      @update_keeps _ _ SessionRecoveryState.lastRecoverySequence m b _ (by rfl) y) _ _ x
  · have hstep : (w.step (.invalidateResumeAdmission aliases)).locks.recovery x = _ := happly x
    show ((w.step (.invalidateResumeAdmission aliases)).locks.recovery x).epoch + w.invalidated x =
      _ + if x ∈ aliases then w.invalidated x + 1 else w.invalidated x
    rw [hstep]
    by_cases hx : x ∈ aliases
    · rw [if_pos hx, if_pos hx]
      dsimp only
      omega
    · rw [if_neg hx, if_neg hx]

theorem Fenced.happens (hw : Fenced w) (hcall : call.NoRepeats) : Happens w (w.step call) := by
  by_cases hwaits : (call.persists && w.locks.running.isSome) = true
  · have hstep : w.step call = w := by
      have hlocks : w.locks.step call = w.locks := if_pos hwaits
      obtain ⟨hpersists, _⟩ := Bool.and_eq_true_iff.mp hwaits
      unfold World.step
      rw [hlocks]
      cases call with
      | finish i stopped => cases hpersists
      | invalidateResumeAdmission aliases => cases hpersists
      | _ => rfl
    rw [hstep]
    exact .frame (.refl w)
  · have hruns : ∀ r, w.locks.step call = r → (∀ i stopped, call ≠ .finish i stopped) →
        (∀ aliases, call ≠ .invalidateResumeAdmission aliases) →
        w.step call = { w with locks := r } := by
      intro r hr hfinish hinvalidate
      unfold World.step
      rw [hr]
      cases call with
      | finish i stopped => exact absurd rfl (hfinish i stopped)
      | invalidateResumeAdmission aliases => exact absurd rfl (hinvalidate aliases)
      | _ => rfl
    have hother : ∀ r, w.locks.step call = r → (∀ i stopped, call ≠ .finish i stopped) →
        (∀ aliases, call ≠ .invalidateResumeAdmission aliases) → Same w.locks r →
        Happens w (w.step call) := by
      intro r hr hfinish hinvalidate hsame
      rw [hruns r hr hfinish hinvalidate]
      exact .frame hsame.frame
    cases call with
    | beginForceStop aliases =>
      obtain ⟨g, hbegins⟩ := beginForceStopLocked_spec w.locks hcall
      exact .begins hcall hbegins
    | beginActiveResumeStop aliasID => exact happens_beginActiveResumeStop w aliasID
    | reject i => exact hw.happens_reject i
    | finish i stopped => exact hw.happens_finish i stopped
    | invalidateResumeAdmission aliases => exact .frame (frame_invalidate w hcall)
    | registerResume err target aliases epochs =>
      exact .frame (same_registerResume w.locks err target aliases epochs).frame
    | beforeLaunch resume => exact .frame (same_beforeLaunch w.locks resume).frame
    | childReaped resume =>
      exact hother _ (if_neg hwaits) (fun _ _ h => nomatch h) (fun _ h => nomatch h)
        (same_launch w.locks resume _)
    | launchFinished resume failed cleanupErr =>
      exact hother _ (if_neg hwaits) (fun _ _ h => nomatch h) (fun _ h => nomatch h)
        (same_launch w.locks resume _)
    | complete resume cleanupErr =>
      exact hother _ (if_neg hwaits) (fun _ _ h => nomatch h) (fun _ h => nomatch h)
        (same_launch w.locks resume _)
    | persistForceStopWithOwner aliases sessionID owner id write =>
      exact hother _ (if_neg hwaits) (fun _ _ h => nomatch h) (fun _ h => nomatch h)
        (same_persistForceStopWithOwner w.locks aliases sessionID owner id write)
    | confirmForceStop sessionID write =>
      exact hother _ (if_neg hwaits) (fun _ _ h => nomatch h) (fun _ h => nomatch h)
        (same_confirmForceStop w.locks sessionID write)
    | explicitResumeCompleted sessionID epoch write =>
      exact hother _ (if_neg hwaits) (fun _ _ h => nomatch h) (fun _ h => nomatch h)
        (same_explicitResumeCompleted w.locks sessionID epoch write)
    | settle => exact .frame (same_settle w.locks).frame

theorem Fenced.step (hw : Fenced w) (hcall : call.NoRepeats) : Fenced (w.step call) := by
  have hhappens := hw.happens hcall
  generalize w.step call = w' at hhappens ⊢
  cases hhappens with
  | frame h => exact hw.frame h
  | begins hnodup h => exact hw.begun hnodup h
  | finishes hf hopen h => exact hw.finished hf hopen h
  | rejects hf hopen hkept h => exact hw.rejected hf hopen hkept h

/-! ## What runs keep -/

/-- Fences are kept with their aliases, and do not change once they are finished. -/
structure Later (w w' : World) : Prop where
  invalidated : ∀ x, w.invalidated x ≤ w'.invalidated x
  fences : ∀ i f, w.locks.At i f → ∃ f', w'.locks.At i f' ∧ f'.aliases = f.aliases ∧
    (f.finished = true → f' = f)

theorem Later.refl (w : World) : Later w w :=
  ⟨fun _ => Nat.le_refl _, fun _ f hf => ⟨f, hf, rfl, fun _ => rfl⟩⟩

theorem Later.trans {w w' w'' : World} (h : Later w w') (h' : Later w' w'') : Later w w'' where
  invalidated x := (h.invalidated x).trans (h'.invalidated x)
  fences i f hf := by
    obtain ⟨f₁, hf₁, haliases, hsame⟩ := h.fences i f hf
    obtain ⟨f₂, hf₂, haliases', hsame'⟩ := h'.fences i f₁ hf₁
    refine ⟨f₂, hf₂, haliases'.trans haliases, fun hdone => ?_⟩
    have hmid := hsame hdone
    rw [hsame' (by rw [hmid]; exact hdone), hmid]

theorem Fenced.later (hw : Fenced w) (hcall : call.NoRepeats) : Later w (w.step call) := by
  have hinvalidated : ∀ x, w.invalidated x ≤ (w.step call).invalidated x := by
    intro x
    cases call with
    | invalidateResumeAdmission aliases =>
      show _ ≤ if x ∈ aliases then w.invalidated x + 1 else w.invalidated x
      split
      · exact Nat.le_succ _
      · exact Nat.le_refl _
    | _ => exact Nat.le_refl _
  refine ⟨hinvalidated, fun i f hf => ?_⟩
  have hhappens := hw.happens hcall
  generalize w.step call = w' at hhappens ⊢
  cases hhappens with
  | frame h =>
    refine ⟨f, ?_, rfl, fun _ => rfl⟩
    show _ = some f
    rw [h.fences]
    exact hf
  | begins hnodup h =>
    refine ⟨f, ?_, rfl, fun _ => rfl⟩
    show _ = some f
    rw [h.fences]
    exact getElem?_concat_iff.mpr (Or.inl hf)
  | @finishes r j g hg hopen h =>
    have hat : ∀ f', r.fences[i]? = some f' ↔
        i = j ∧ f' = { g with finished := true } ∨ i ≠ j ∧ w.locks.fences[i]? = some f' := by
      intro f'
      rw [h.fences]
      exact getElem?_set_iff hg
    by_cases hi : i = j
    · subst hi
      obtain rfl : f = g := some.inj (hf.symm.trans hg)
      refine ⟨_, (hat _).mpr (Or.inl ⟨rfl, rfl⟩), rfl, fun hdone => ?_⟩
      rw [hopen] at hdone
      cases hdone
    · exact ⟨f, (hat _).mpr (Or.inr ⟨hi, hf⟩), rfl, fun _ => rfl⟩
  | @rejects r j g hg hopen hkept h =>
    refine ⟨refused w.locks j g i f, ?_, (refused_same w.locks j g i f).1, fun hdone => ?_⟩
    · show r.fences[i]? = _
      rw [h.fences, getElem?_mapIdx, show w.locks.fences[i]? = some f from hf]
      rfl
    · have hi : i ≠ j := by
        rintro rfl
        obtain rfl : f = g := some.inj (hf.symm.trans hg)
        rw [hopen] at hdone
        cases hdone
      have hreleased : i ∉ w.locks.held := by
        rw [hw.held, World.unfinished, show w.locks.fences[i]? = some f from hf, any_some,
          hdone]
        exact Bool.false_ne_true
      unfold refused
      rw [if_neg hi, if_neg hreleased]

theorem Fenced.fold (hw : Fenced w) {calls : List Call} (hcalls : ∀ call ∈ calls, call.NoRepeats) :
    Fenced (calls.foldl World.step w) ∧ Later w (calls.foldl World.step w) := by
  induction calls generalizing w with
  | nil => exact ⟨hw, .refl w⟩
  | cons call calls ih =>
    have hcall := hcalls call mem_cons_self
    obtain ⟨hfenced, hlater⟩ := ih (hw.step hcall) fun call' hmem =>
      hcalls call' (mem_cons_of_mem _ hmem)
    exact ⟨hfenced, (hw.later hcall).trans hlater⟩

/-- Counts do not go down where what they count is kept; if they stay, nothing new is counted. -/
theorem countP_kept {p : α → Bool} {l l' : List α}
    (h : ∀ (i : Nat) a, l[i]? = some a → ∃ a', l'[i]? = some a' ∧ (p a = true → p a' = true)) :
    l.countP p ≤ l'.countP p ∧ (l'.countP p = l.countP p →
      ∀ (i : Nat) a', l'[i]? = some a' → p a' = true → ∃ a, l[i]? = some a ∧ p a = true) := by
  induction l generalizing l' with
  | nil =>
    refine ⟨Nat.zero_le _, fun hsame i a' ha' hp => ?_⟩
    exact absurd hp (countP_eq_zero.mp hsame a' (mem_of_getElem? ha'))
  | cons a l ih =>
    obtain ⟨a', ha', hkept⟩ := h 0 a rfl
    cases l' with
    | nil => cases ha'
    | cons b l' =>
      obtain rfl : b = a' := some.inj ha'
      obtain ⟨hle, hsame⟩ := @ih l' fun i c hc => h (i + 1) c hc
      rw [countP_cons, countP_cons]
      by_cases hp : p a = true
      · rw [if_pos hp, if_pos (hkept hp)]
        refine ⟨Nat.succ_le_succ hle, fun heq i c hc hpc => ?_⟩
        cases i with
        | zero => exact ⟨a, rfl, hp⟩
        | succ i => exact hsame (by omega) i c hc hpc
      · rw [if_neg hp]
        refine ⟨by omega, fun heq i c hc hpc => ?_⟩
        have hnot : ¬ p b = true := by
          intro hb
          rw [if_pos hb] at heq
          omega
        cases i with
        | zero =>
          obtain rfl : b = c := some.inj hc
          exact absurd hpc hnot
        | succ i =>
          rw [if_neg hnot] at heq
          exact hsame (by omega) i c hc hpc

/-- A resume is registered when its aliases are at the epochs given, and nothing holds them. -/
theorem registerResume_admits {r' : ResumeLocks} {err : Option String} {target : String}
    {epochs : List (String × Nat)} {resume : Nat}
    (h : r.registerResume err target aliases epochs = (.ok resume, r')) (hx : x ∈ aliases) :
    some (r.recovery x).epoch = (lookup Prod.fst x epochs).map Prod.snd ∧
      (r.recovery x).stopping = 0 := by
  unfold ResumeLocks.registerResume at h
  dsimp only at h
  split at h
  · cases h
  · split at h
    · cases h
    · split at h
      · cases h
      · next hnone =>
        have hmem : x ∈ compactSorted aliases :=
          mem_dedup.mpr (mem_sortBy.mpr hx)
        have hadmits := findSome?_eq_none_iff.mp hnone x hmem
        split at hadmits
        · cases hadmits
        · split at hadmits
          · cases hadmits
          · next hboth =>
            rw [not_or, not_not, not_not] at hboth
            exact hboth

/-- Fences on an empty root. In every state, for every alias: what its fences hold and published,
    and who is admitted. -/
theorem fences_neutral_and_final {calls : List Call} (hcalls : ∀ call ∈ calls, call.NoRepeats)
    (x : String) :
    let w := World.run calls
    ResumeLocks.newPersistentResumeLocks none = .ok {} ∧
    (w.locks.recovery x).stopping = w.locks.fences.countP (ForceStopFence.holds x) ∧
    (w.locks.recovery x).epoch =
      w.invalidated x + w.locks.fences.countP (ForceStopFence.published x) ∧
    IsGreatest (insert 0 (w.standing x)) (w.locks.recovery x).lastRecoverySequence ∧
    ∀ err target aliases epochs resume r',
      w.locks.registerResume err target aliases epochs = (.ok resume, r') → x ∈ aliases →
      (∀ i f, w.locks.At i f → x ∈ f.aliases → f.finished = true) ∧
      -- the epoch was read earlier in the run
      ∀ before since, calls = before ++ since →
        (lookup Prod.fst x epochs).map Prod.snd =
          some ((World.run before).locks.recovery x).epoch →
        w.invalidated x = (World.run before).invalidated x ∧
        ∀ i f, w.locks.At i f → x ∈ f.aliases → f.rejected = false →
          (World.run before).locks.At i f := by
  intro w
  have hw : Fenced w := (Fenced.initial.fold hcalls).1
  refine ⟨rfl, hw.stopping x, hw.epoch x, hw.last x, fun err target aliases epochs resume r' h hx =>
    ?_⟩
  obtain ⟨hepoch, hstopping⟩ := registerResume_admits h hx
  have hfree : ∀ i f, w.locks.At i f → x ∈ f.aliases → f.finished = true := by
    intro i f hf hxf
    have hcount := hw.stopping x
    rw [hstopping] at hcount
    have hnone := countP_eq_zero.mp (Int.ofNat_eq_zero.mp hcount.symm) f
      (mem_of_getElem? hf)
    by_contra hopen
    refine hnone ?_
    rw [ForceStopFence.holds, eq_false_of_ne_true hopen, decide_eq_true hxf]
    rfl
  refine ⟨hfree, fun before since hsplit hread => ?_⟩
  have hbefore : Fenced (World.run before) ∧ Later (World.run before) w := by
    rw [hsplit] at hcalls
    have hfirst := Fenced.initial.fold fun call hmem =>
      hcalls call (mem_append_left _ hmem)
    have hsecond := hfirst.1.fold fun call hmem => hcalls call (mem_append_right _ hmem)
    refine ⟨hfirst.1, ?_⟩
    show Later (World.run before) (World.run calls)
    rw [hsplit, World.run, World.run, foldl_append]
    exact hsecond.2
  obtain ⟨hold, hlater⟩ := hbefore
  have hkept := @countP_kept _ (ForceStopFence.published x) (World.run before).locks.fences
    w.locks.fences fun i f hf => by
      obtain ⟨f', hf', _, hsame⟩ := hlater.fences i f hf
      refine ⟨f', hf', fun hpublished => ?_⟩
      have hdone : f.finished = true := by
        rw [ForceStopFence.published] at hpublished
        exact (Bool.and_eq_true_iff.mp (Bool.and_eq_true_iff.mp hpublished).1).1
      rw [hsame hdone]
      exact hpublished
  have hinvalidated := hlater.invalidated x
  rw [hread] at hepoch
  have hsame := some.inj hepoch
  rw [hw.epoch, hold.epoch] at hsame
  refine ⟨by omega, fun i f hf hxf hunrejected => ?_⟩
  have hpublished : f.published x = true := by
    rw [ForceStopFence.published, hfree i f hf hxf, hunrejected, decide_eq_true hxf]
    rfl
  obtain ⟨f₀, hf₀, hp₀⟩ := hkept.2 (by omega) i f hf hpublished
  obtain ⟨f', hf', _, hstays⟩ := hlater.fences i f₀ hf₀
  have hdone : f₀.finished = true := by
    rw [ForceStopFence.published] at hp₀
    exact (Bool.and_eq_true_iff.mp (Bool.and_eq_true_iff.mp hp₀).1).1
  rw [hstays hdone] at hf'
  rw [some.inj (hf.symm.trans hf')]
  exact hf₀

/-- Two overlapping fences: the older one is refused, the newer one published. -/
def overlapping : List Call :=
  [.beginForceStop ["a", "b"], .beginForceStop ["b", "c"], .reject 0, .finish 1 true, .finish 0 false]

theorem overlapping_fences : ((World.run overlapping).locks.recovery "b").stopping = 0 ∧
    ((World.run overlapping).locks.recovery "b").epoch = 1 ∧
    IsGreatest (insert 0 ((World.run overlapping).standing "b"))
      ((World.run overlapping).locks.recovery "b").lastRecoverySequence := by
  have h := @fences_neutral_and_final overlapping (by decide) "b"
  exact ⟨h.2.1.trans (by decide), h.2.2.1.trans (by decide), h.2.2.2.1⟩

end Evener.Hubcore
