/-
  What holds of every aggregate of an accepted delegate journal, and what no longer journal can
  change.
-/
import Evener.Delegatestore.Refinement
import Mathlib.Logic.Relation

namespace Evener.Delegatestore

open Evener.Lib Option
open List hiding lookup

/-- The facts the guards of the fold rely on, for one aggregate. -/
structure Aggregate.Invariant (a : Aggregate) : Prop where
  working : a.phase = .running ∨ a.phase = .settling → a.currentRunOpen = true
  opened : a.currentRunOpen = true →
    a.phase = .running ∨ a.phase = .settling ∨ a.phase = .stopping
  idle : a.phase = .idle → a.resumable = true ∧ a.currentRunOpen = false ∧ a.pendingStopSeq = 0
  closed : a.phase = .closed → a.resumable = false ∧ a.currentRunOpen = false
  stopping : a.phase = .stopping ↔ a.pendingStopSeq ≠ 0 ∧ a.phase ≠ .closed
  settling : a.phase = .settling → a.preparedTerminal ≠ none
  unprepared : a.phase = .running ∨ a.phase = .idle → a.preparedTerminal = none

variable {a : Aggregate} {state state' : State} {id : String} {f : String → Aggregate → Aggregate}
  {event : Event} {events : List Event}

theorem Aggregate.Invariant.of_coherent (h : a.life.Coherent) : a.Invariant where
  working := h.working
  opened := h.opened
  idle := h.idle
  closed := h.closed
  stopping := h.stopping
  settling := fun hphase => isSome_iff_ne_none.mp (h.settling hphase)
  unprepared := fun hphase => by
    have hprepared : a.preparedTerminal.isSome = false := h.unprepared hphase
    simpa using hprepared

/-! ## Parents -/

def parentOf (state : State) (parent child : String) : Prop :=
  parent ≠ "" ∧ ∃ a, aggregateOf state child = some a ∧ a.descriptor.parentDelegateId = parent

/-- The place of a delegate in the order of creation. -/
def rank (state : State) (id : String) : Nat := (state.map Prod.fst).idxOf id

/-- Every parent was created before its child. -/
def Rooted (state : State) : Prop :=
  ∀ parent child, parentOf state parent child →
    (aggregateOf state parent).isSome ∧ rank state parent < rank state child

theorem isSome_aggregateOf : (aggregateOf state id).isSome ↔ id ∈ state.map Prod.fst := by
  constructor
  · intro h
    obtain ⟨a, ha⟩ := isSome_iff_exists.mp h
    exact mem_map.mpr ⟨(id, a), mem_of_aggregateOf ha, rfl⟩
  · intro h
    cases hfound : aggregateOf state id with
    | some _ => rfl
    | none =>
      obtain ⟨entry, hentry, rfl⟩ := mem_map.mp h
      have hnone : lookup Prod.fst entry.1 state = none := by simpa [aggregateOf] using hfound
      exact absurd rfl (lookup_eq_none.mp hnone entry hentry)

theorem keys_rewrite (f : String → Aggregate → Aggregate) (state : State) :
    (rewrite f state).map Prod.fst = state.map Prod.fst := by
  simp [rewrite, Function.comp_def]

theorem Rooted.acyclic (h : Rooted state) (id : String) :
    ¬ Relation.TransGen (parentOf state) id id := by
  have hrank : ∀ {x y}, Relation.TransGen (parentOf state) x y → rank state x < rank state y := by
    intro x y hxy
    induction hxy with
    | single hp => exact (h _ _ hp).2
    | tail _ hp ih => exact Nat.lt_trans ih (h _ _ hp).2
  exact fun hcycle => Nat.lt_irrefl _ (hrank hcycle)

/-- The climb from a delegate created as the `n`-th is over after `n + 1` turns. -/
theorem Rooted.climbsTo (h : Rooted state) (target : String) (n : Nat) :
    ∀ current, rank state current < n →
      ∃ b, ∀ fuel, n < fuel → climbsTo state target fuel current = some b := by
  induction n with
  | zero => exact fun current hlt => absurd hlt (Nat.not_lt_zero _)
  | succ n ih =>
    intro current hlt
    by_cases hroot : current = ""
    · refine ⟨false, fun fuel hfuel => ?_⟩
      obtain ⟨k, rfl⟩ : ∃ k, fuel = k + 1 := ⟨fuel - 1, by omega⟩
      simp [Delegatestore.climbsTo, hroot]
    · by_cases htarget : current = target
      · refine ⟨true, fun fuel hfuel => ?_⟩
        obtain ⟨k, rfl⟩ : ∃ k, fuel = k + 1 := ⟨fuel - 1, by omega⟩
        rw [Delegatestore.climbsTo, if_neg hroot, if_pos htarget]
      · cases hfound : aggregateOf state current with
        | none =>
          refine ⟨false, fun fuel hfuel => ?_⟩
          obtain ⟨k, rfl⟩ : ∃ k, fuel = k + 1 := ⟨fuel - 1, by omega⟩
          rw [Delegatestore.climbsTo, if_neg hroot, if_neg htarget, hfound]
        | some a =>
          obtain ⟨b, hb⟩ : ∃ b, ∀ fuel, n < fuel →
              Delegatestore.climbsTo state target fuel a.descriptor.parentDelegateId = some b := by
            by_cases hparent : a.descriptor.parentDelegateId = ""
            · refine ⟨false, fun fuel hfuel => ?_⟩
              obtain ⟨k, rfl⟩ : ∃ k, fuel = k + 1 := ⟨fuel - 1, by omega⟩
              simp [Delegatestore.climbsTo, hparent]
            · have hbefore := (h _ current ⟨hparent, a, hfound, rfl⟩).2
              exact ih _ (by omega)
          refine ⟨b, fun fuel hfuel => ?_⟩
          obtain ⟨k, rfl⟩ : ∃ k, fuel = k + 1 := ⟨fuel - 1, by omega⟩
          rw [Delegatestore.climbsTo, if_neg hroot, if_neg htarget, hfound]
          exact hb k (by omega)

/-- The loop ends, with the answer the fold uses. -/
theorem Rooted.isDelegateOrDescendant_eq (h : Rooted state) (id target : String) {fuel : Nat}
    (hfuel : state.length < fuel) :
    Delegatestore.climbsTo state target fuel id = some (isDelegateOrDescendant state id target) := by
  obtain ⟨b, hb⟩ : ∃ b, ∀ fuel, state.length < fuel →
      Delegatestore.climbsTo state target fuel id = some b := by
    by_cases hheld : id ∈ state.map Prod.fst
    · have hlt : rank state id < state.length := by
        have := idxOf_lt_length_iff.mpr hheld
        rwa [length_map] at this
      exact h.climbsTo target state.length id hlt
    · have hfound : aggregateOf state id = none := by
        cases hfound : aggregateOf state id with
        | none => rfl
        | some a => exact absurd ((isSome_aggregateOf).mp (by rw [hfound]; rfl)) hheld
      refine ⟨decide (id ≠ "" ∧ id = target), fun fuel hfuel => ?_⟩
      obtain ⟨k, rfl⟩ : ∃ k, fuel = k + 1 := ⟨fuel - 1, by omega⟩
      rw [Delegatestore.climbsTo, hfound]
      by_cases hroot : id = ""
      · simp [hroot]
      · rw [if_neg hroot]
        by_cases htarget : id = target
        · simp [htarget ▸ hroot, htarget]
        · simp [htarget]
  rw [hb fuel hfuel, isDelegateOrDescendant, hb (state.length + 1) (Nat.lt_succ_self _)]
  rfl

/-! ## One event -/

/-- What an accepted journal keeps true of the whole state. -/
structure Sound (state : State) : Prop where
  keys : KeysNodup Prod.fst state
  coherent : ∀ id a, aggregateOf state id = some a → a.life.Coherent
  oneStop : ∀ id a id' a', aggregateOf state id = some a → aggregateOf state id' = some a' →
    a.pendingStopSeq ≠ 0 → a'.pendingStopSeq ≠ 0 → a.pendingStopSeq = a'.pendingStopSeq
  rooted : Rooted state

theorem sound_nil : Sound [] where
  keys := keysNodup_nil
  coherent := fun _ _ h => nomatch h
  oneStop := fun _ _ _ _ h => nomatch h
  rooted := fun _ _ h => by
    obtain ⟨_, a, ha, _⟩ := h
    exact nomatch ha

/-- A delegate of the rewritten state is one of the old state, rewritten. -/
theorem aggregateOf_rewrite_eq_some {a' : Aggregate}
    (h : aggregateOf (rewrite f state) id = some a') :
    ∃ a, aggregateOf state id = some a ∧ a' = f id a := by
  rw [aggregateOf_rewrite] at h
  obtain ⟨a, ha, rfl⟩ := map_eq_some_iff.mp h
  exact ⟨a, ha, rfl⟩

theorem Rooted.rewrite (h : Rooted state)
    (hkeeps : ∀ id a, aggregateOf state id = some a → Keeps a (f id a)) :
    Rooted (rewrite f state) := by
  intro parent child ⟨hne, a', ha', hparent⟩
  obtain ⟨a, ha, rfl⟩ := aggregateOf_rewrite_eq_some ha'
  rw [(hkeeps child a ha).descriptor] at hparent
  obtain ⟨hheld, hrank⟩ := h parent child ⟨hne, a, ha, hparent⟩
  unfold rank at hrank ⊢
  rw [keys_rewrite, aggregateOf_rewrite, isSome_map]
  exact ⟨hheld, hrank⟩

theorem Rooted.append (h : Rooted state) (hnew : aggregateOf state id = none)
    (hparent : a.descriptor.parentDelegateId = "" ∨ (aggregateOf state a.descriptor.parentDelegateId).isSome) :
    Rooted (state ++ [(id, a)]) := by
  have hfresh : id ∉ state.map Prod.fst := by
    intro hmem
    rw [isSome_aggregateOf.symm, hnew] at hmem
    exact Bool.false_ne_true hmem
  have hkeys : (state ++ [(id, a)]).map Prod.fst = state.map Prod.fst ++ [id] := map_append
  have hold : ∀ {x}, (aggregateOf state x).isSome → rank (state ++ [(id, a)]) x = rank state x := by
    intro x hx
    unfold rank
    rw [hkeys, idxOf_append_of_mem (isSome_aggregateOf.mp hx)]
  have hheld : ∀ {x}, (aggregateOf state x).isSome → (aggregateOf (state ++ [(id, a)]) x).isSome := by
    intro x hx
    rw [isSome_aggregateOf, hkeys]
    exact mem_append_left _ (isSome_aggregateOf.mp hx)
  intro parent child ⟨hne, b, hb, hbparent⟩
  rw [aggregateOf_append] at hb
  cases hchild : aggregateOf state child with
  | some c =>
    -- a delegate that was there keeps its parent and its place
    rw [hchild] at hb
    have hb : some c = some b := hb
    cases hb
    obtain ⟨hparentHeld, hrank⟩ := h parent child ⟨hne, b, hchild, hbparent⟩
    rw [hold hparentHeld, hold (by rw [hchild]; rfl)]
    exact ⟨hheld hparentHeld, hrank⟩
  | none =>
    rw [hchild] at hb
    have hb : (if id = child then some a else none) = some b := hb
    split at hb
    · next hid =>
      cases hb
      subst hid
      subst hbparent
      have hparentHeld := hparent.resolve_left hne
      refine ⟨hheld hparentHeld, ?_⟩
      rw [hold hparentHeld]
      unfold rank
      rw [hkeys, idxOf_append_of_notMem hfresh]
      have := idxOf_lt_length_iff.mpr (isSome_aggregateOf.mp hparentHeld)
      omega
    · cases hb

theorem Moves.oneStop {label : String → Life.Label} (hmoves : Moves event state f label)
    (h : Sound state) {id' : String} {a' : Aggregate} (ha : aggregateOf state id = some a)
    (ha' : aggregateOf state id' = some a') (hne : (f id a).pendingStopSeq ≠ 0)
    (hne' : (f id' a').pendingStopSeq ≠ 0) :
    (f id a).pendingStopSeq = (f id' a').pendingStopSeq := by
  -- a pending stop was pending before, or is this event's and no other was
  have hcases : ∀ {x b}, aggregateOf state x = some b → (f x b).pendingStopSeq ≠ 0 →
      ((f x b).pendingStopSeq = b.pendingStopSeq) ∨
      ((f x b).pendingStopSeq = event.seq ∧
        ∀ y c, aggregateOf state y = some c → c.pendingStopSeq = 0) := by
    intro x b hb hne
    rcases (hmoves.step x b hb).stopSeq with hsame | hzero | ⟨seq, hlabel, hseq⟩
    · exact Or.inl hsame
    · exact absurd hzero hne
    · obtain ⟨rfl, hfree⟩ := hmoves.stops x seq hlabel
      exact Or.inr ⟨hseq, hfree⟩
  rcases hcases ha hne with hsame | ⟨hseq, hfree⟩
  · rcases hcases ha' hne' with hsame' | ⟨_, hfree'⟩
    · rw [hsame, hsame']
      rw [hsame] at hne
      rw [hsame'] at hne'
      exact h.oneStop id a id' a' ha ha' hne hne'
    · rw [hsame] at hne
      exact absurd (hfree' id a ha) hne
  · rcases hcases ha' hne' with hsame' | ⟨hseq', _⟩
    · rw [hsame'] at hne'
      exact absurd (hfree id' a' ha') hne'
    · rw [hseq, hseq']

theorem Moves.sound {label : String → Life.Label} (hmoves : Moves event state f label)
    (h : Sound state) :
    Sound (rewrite f state) where
  keys := by
    unfold KeysNodup
    rw [keys_rewrite]
    exact h.keys
  coherent := by
    intro id a' ha'
    obtain ⟨a, ha, rfl⟩ := aggregateOf_rewrite_eq_some ha'
    exact (h.coherent id a ha).step (hmoves.step id a ha)
  oneStop := by
    intro id b id' b' hb hb' hne hne'
    obtain ⟨a, ha, rfl⟩ := aggregateOf_rewrite_eq_some hb
    obtain ⟨a', ha', rfl⟩ := aggregateOf_rewrite_eq_some hb'
    exact hmoves.oneStop h ha ha' hne hne'
  rooted := h.rooted.rewrite hmoves.keeps

/-- A quiet rewrite is a move in which every delegate stands still. -/
theorem moves_quiet (hkind : event.kind = .delegateCreated)
    (hquiet : ∀ id a, aggregateOf state id = some a → Quiet a (f id a)) :
    Moves event state f fun _ => .quiet where
  keeps := fun id a ha => (hquiet id a ha).keeps
  step := by
    intro id a ha
    rw [(hquiet id a ha).life]
    exact Life.Step.quiet
  starts := by
    intro id generation hstart
    simp [startsRun, hkind] at hstart
  finishes := by
    intro id generation hfinish
    simp [finishesRun, hkind] at hfinish
  stops := fun _ _ hlabel => nomatch hlabel

theorem aggregateOf_append_eq_some {x : String} {b : Aggregate}
    (h : aggregateOf (state ++ [(id, a)]) x = some b) :
    aggregateOf state x = some b ∨ (x = id ∧ b = a) := by
  rw [aggregateOf_append] at h
  cases hx : aggregateOf state x with
  | some c =>
    rw [hx] at h
    exact Or.inl h
  | none =>
    rw [hx] at h
    have h : (if id = x then some a else none) = some b := h
    split at h
    · next hid => exact Or.inr ⟨hid.symm, (some.inj h).symm⟩
    · cases h

theorem aggregateOf_append_of_some (entry : String × Aggregate) (h : aggregateOf state id = some a) :
    aggregateOf (state ++ [entry]) id = some a := by
  rw [aggregateOf_append, h]
  rfl

theorem Sound.append (h : Sound state) (hnew : aggregateOf state id = none)
    (hparent : a.descriptor.parentDelegateId = "" ∨ (aggregateOf state a.descriptor.parentDelegateId).isSome)
    (hlife : a.life = Life.initial a.resumable) : Sound (state ++ [(id, a)]) where
  keys := by
    rw [← put_new hnew]
    exact keysNodup_put h.keys _
  coherent := by
    intro x b hb
    rcases aggregateOf_append_eq_some hb with hold | ⟨_, rfl⟩
    · exact h.coherent x b hold
    · rw [hlife]
      exact Life.coherent_initial _
  oneStop := by
    have hfree : a.pendingStopSeq = 0 := congrArg Life.stopSeq hlife
    intro x b x' b' hb hb' hne hne'
    rcases aggregateOf_append_eq_some hb with hold | ⟨_, rfl⟩
    · rcases aggregateOf_append_eq_some hb' with hold' | ⟨_, rfl⟩
      · exact h.oneStop x b x' b' hold hold' hne hne'
      · exact absurd hfree hne'
    · exact absurd hfree hne
  rooted := h.rooted.append hnew hparent

theorem Evolves.sound (h : Evolves event state state') (hsound : Sound state) : Sound state' := by
  cases h with
  | created f a hkind hquiet hnew hparent hlife =>
    have hrewritten := (moves_quiet hkind hquiet).sound hsound
    refine hrewritten.append ?_ ?_ hlife
    · rw [aggregateOf_rewrite, hnew]
      rfl
    · rw [aggregateOf_rewrite, isSome_map]
      exact hparent
  | moved f label hmoves => exact hmoves.sound hsound

/-- The move an event makes on a delegate that is already there. -/
theorem Evolves.step (h : Evolves event state state') (ha : aggregateOf state id = some a) :
    ∃ a' label, aggregateOf state' id = some a' ∧ Keeps a a' ∧ Life.Step label a.life a'.life ∧
      (∀ generation, startsRun id generation event = true → label = .start generation) ∧
      (∀ generation, finishesRun id generation event = true → label = .finish generation) := by
  have hmoved : ∀ {f label}, Moves event state f label →
      aggregateOf (rewrite f state) id = some (f id a) ∧ Keeps a (f id a) ∧
        Life.Step (label id) a.life (f id a).life ∧
        (∀ generation, startsRun id generation event = true → label id = .start generation) ∧
        (∀ generation, finishesRun id generation event = true → label id = .finish generation) := by
    intro f label hmoves
    refine ⟨?_, hmoves.keeps id a ha, hmoves.step id a ha, ?_, ?_⟩
    · rw [aggregateOf_rewrite, ha]
      rfl
    · exact fun generation hstart => (hmoves.starts id generation hstart).2
    · exact fun generation hfinish => (hmoves.finishes id generation hfinish).2
  cases h with
  | created f b hkind hquiet hnew hparent hlife =>
    obtain ⟨hfound, hrest⟩ := hmoved (moves_quiet hkind hquiet)
    exact ⟨_, _, aggregateOf_append_of_some _ hfound, hrest⟩
  | moved f label hmoves =>
    obtain ⟨hfound, hrest⟩ := hmoved hmoves
    exact ⟨_, _, hfound, hrest⟩

/-- A run is started, and finished, only on a delegate that is there. -/
theorem Evolves.isSome_of_run (h : Evolves event state state') {generation : Nat}
    (hrun : startsRun id generation event = true ∨ finishesRun id generation event = true) :
    (aggregateOf state id).isSome := by
  cases h with
  | created f b hkind hquiet hnew hparent hlife =>
    rcases hrun with hrun | hrun
    · simp [startsRun, hkind] at hrun
    · simp [finishesRun, hkind] at hrun
  | moved f label hmoves =>
    rcases hrun with hrun | hrun
    · exact (hmoves.starts id generation hrun).1
    · exact (hmoves.finishes id generation hrun).1

/-! ## Extensions -/

/-- What a longer journal keeps of an aggregate. -/
structure Follows (a a' : Aggregate) : Prop where
  keeps : Keeps a a'
  generation_le : a.generation ≤ a'.generation
  closed : a.phase = .closed → a'.phase = .closed

theorem Follows.refl (a : Aggregate) : Follows a a := ⟨Keeps.refl a, Nat.le_refl _, id⟩

theorem Follows.trans {b c : Aggregate} (h : Follows a b) (h' : Follows b c) : Follows a c :=
  ⟨h.keeps.trans h'.keeps, Nat.le_trans h.generation_le h'.generation_le, h'.closed ∘ h.closed⟩

/-- Marked events are counted once per generation, and the life has the generation behind it. -/
def CountedOnce (mark : String → Nat → Event → Bool) (past : Life → Nat → Prop)
    (events : List Event) (state : State) : Prop :=
  ∀ id generation, events.countP (mark id generation) ≤ 1 ∧
    (0 < events.countP (mark id generation) →
      ∃ a, aggregateOf state id = some a ∧ past a.life generation)

theorem CountedOnce.snoc {mark : String → Nat → Event → Bool} {past : Life → Nat → Prop}
    (h : CountedOnce mark past events state)
    (hkeeps : ∀ id a generation, aggregateOf state id = some a → past a.life generation →
      ∃ a', aggregateOf state' id = some a' ∧ past a'.life generation)
    (hmark : ∀ id generation, mark id generation event = true →
      ∃ a a', aggregateOf state id = some a ∧ aggregateOf state' id = some a' ∧
      ¬ past a.life generation ∧ past a'.life generation) :
    CountedOnce mark past (events ++ [event]) state' := by
  intro id generation
  obtain ⟨hle, hpast⟩ := h id generation
  rw [countP_append, countP_singleton]
  by_cases hevent : mark id generation event = true
  · obtain ⟨a, a', ha, ha', hbefore, hafter⟩ := hmark id generation hevent
    rw [if_pos hevent]
    have hzero : events.countP (mark id generation) = 0 := by
      by_contra hne
      obtain ⟨b, hb, hbpast⟩ := hpast (Nat.pos_of_ne_zero hne)
      rw [ha] at hb
      cases hb
      exact hbefore hbpast
    exact ⟨by omega, fun _ => ⟨a', ha', hafter⟩⟩
  · rw [if_neg hevent]
    refine ⟨hle, fun hpos => ?_⟩
    obtain ⟨a, ha, hapast⟩ := hpast hpos
    exact hkeeps id a generation ha hapast

/-- The whole of what is carried along an accepted journal `events`. -/
structure Tracked (events : List Event) (state : State) : Prop where
  sound : Sound state
  starts : CountedOnce startsRun Life.Begun events state
  finishes : CountedOnce finishesRun Life.Settled events state

theorem tracked_nil : Tracked [] [] where
  sound := sound_nil
  starts := fun _ _ => ⟨Nat.zero_le _, fun h => absurd h (Nat.lt_irrefl _)⟩
  finishes := fun _ _ => ⟨Nat.zero_le _, fun h => absurd h (Nat.lt_irrefl _)⟩

theorem Tracked.snoc (h : Tracked events state) (hevolves : Evolves event state state') :
    Tracked (events ++ [event]) state' where
  sound := hevolves.sound h.sound
  starts := by
    refine h.starts.snoc ?_ ?_
    · intro id a generation ha hbegun
      obtain ⟨a', label, ha', _, hstep, _⟩ := hevolves.step ha
      exact ⟨a', ha', hstep.begun hbegun⟩
    · intro id generation hstart
      obtain ⟨a, ha⟩ := isSome_iff_exists.mp (hevolves.isSome_of_run (Or.inl hstart))
      obtain ⟨a', label, ha', _, hstep, hlabel, _⟩ := hevolves.step ha
      rw [hlabel generation hstart] at hstep
      exact ⟨a, a', ha, ha', hstep.of_start⟩
  finishes := by
    refine h.finishes.snoc ?_ ?_
    · intro id a generation ha hsettled
      obtain ⟨a', label, ha', _, hstep, _⟩ := hevolves.step ha
      exact ⟨a', ha', hstep.settled hsettled⟩
    · intro id generation hfinish
      obtain ⟨a, ha⟩ := isSome_iff_exists.mp (hevolves.isSome_of_run (Or.inr hfinish))
      obtain ⟨a', label, ha', _, hstep, _, hlabel⟩ := hevolves.step ha
      rw [hlabel generation hfinish] at hstep
      exact ⟨a, a', ha, ha', hstep.of_finish⟩

/-! ## Journals -/

/-- Every accepted journal is tracked, and follows every aggregate of the state it starts from. -/
theorem foldlM_tracked {json : Json} {read entries : List (Event × Nat)}
    (htracked : Tracked (read.map Prod.fst) state)
    (h : entries.foldlM (foldStep json) state = .ok state') :
    Tracked ((read ++ entries).map Prod.fst) state' ∧
      ∀ id a, aggregateOf state id = some a →
        ∃ a', aggregateOf state' id = some a' ∧ Follows a a' := by
  refine foldlM_induct (P := fun read now => Tracked (read.map Prod.fst) now ∧
    ∀ id a, aggregateOf state id = some a → ∃ a', aggregateOf now id = some a' ∧ Follows a a')
    ?_ ⟨htracked, fun id a ha => ⟨a, ha, Follows.refl a⟩⟩ h
  intro read entry now next ⟨hnow, hfollows⟩ hstep
  obtain ⟨_, hevolves⟩ := foldStep_evolves hnow.sound.keys hstep
  refine ⟨?_, fun id a ha => ?_⟩
  · rw [map_append]
    exact hnow.snoc hevolves
  · obtain ⟨b, hb, hab⟩ := hfollows id a ha
    obtain ⟨c, label, hc, hkeeps, hlife, _⟩ := hevolves.step hb
    have hbc : Follows b c :=
      ⟨hkeeps, hlife.generation_le, hlife.closed (hnow.sound.coherent id b hb)⟩
    exact ⟨c, hc, hab.trans hbc⟩

theorem fold_tracked {json : Json} (h : fold json events = .ok state) : Tracked events state := by
  have hnil : Tracked (([] : List (Event × Nat)).map Prod.fst) [] := tracked_nil
  have htracked := (foldlM_tracked hnil h).1
  rwa [nil_append, zipIdx_map_fst] at htracked

/-- The invariant of every aggregate of an accepted journal, and what extensions of it keep. -/
theorem fold_invariant (json : Json) (events : List Event) (state : State)
    (h : fold json events = .ok state) :
    (∀ id a, aggregateOf state id = some a → a.Invariant) ∧
    (∀ id a id' a', aggregateOf state id = some a → aggregateOf state id' = some a' →
      a.pendingStopSeq ≠ 0 → a'.pendingStopSeq ≠ 0 → a.pendingStopSeq = a'.pendingStopSeq) ∧
    (∀ id a, aggregateOf state id = some a → a.descriptor.parentDelegateId ≠ "" →
      (aggregateOf state a.descriptor.parentDelegateId).isSome) ∧
    (∀ id, ¬ Relation.TransGen (parentOf state) id id) ∧
    (∀ id target fuel, state.length < fuel →
      climbsTo state target fuel id = some (isDelegateOrDescendant state id target)) ∧
    (∀ more state', fold json (events ++ more) = .ok state' →
      (∀ id generation, (events ++ more).countP (startsRun id generation) ≤ 1 ∧
        (events ++ more).countP (finishesRun id generation) ≤ 1) ∧
      ∀ id a, aggregateOf state id = some a → ∃ a', aggregateOf state' id = some a' ∧
        a.generation ≤ a'.generation ∧ a'.delegateId = a.delegateId ∧
        a'.createdAt = a.createdAt ∧ a'.descriptor = a.descriptor ∧
        (a.phase = .closed → a'.phase = .closed)) := by
  have htracked := fold_tracked h
  have hsound := htracked.sound
  refine ⟨?_, hsound.oneStop, ?_, hsound.rooted.acyclic, ?_, ?_⟩
  · exact fun id a ha => .of_coherent (hsound.coherent id a ha)
  · exact fun id a ha hne => (hsound.rooted _ id ⟨hne, a, ha, rfl⟩).1
  · exact fun id target fuel hfuel => hsound.rooted.isDelegateOrDescendant_eq id target hfuel
  · intro more state' hmore
    have htracked' := fold_tracked hmore
    refine ⟨fun id generation =>
      ⟨(htracked'.starts id generation).1, (htracked'.finishes id generation).1⟩, ?_⟩
    -- the longer fold passes through the state of the shorter one
    unfold fold at h hmore
    rw [zipIdx_append] at hmore
    obtain ⟨middle, hmiddle, hrest⟩ := foldlM_append_eq_ok.mp hmore
    rw [h] at hmiddle
    cases hmiddle
    have hread : Tracked (events.zipIdx.map Prod.fst) state := by
      rw [zipIdx_map_fst]
      exact htracked
    intro id a ha
    obtain ⟨a', ha', hfollows⟩ := (foldlM_tracked hread hrest).2 id a ha
    exact ⟨a', ha', hfollows.generation_le, hfollows.keeps.delegateId, hfollows.keeps.createdAt,
      hfollows.keeps.descriptor, hfollows.closed⟩

def plainDescriptor (parent : String) : Descriptor where
  childSessionId := "s"
  transcriptRef := "t"
  parentDelegateId := parent
  ownerSessionId := "o"
  task := "k"
  agentType := "g"
  toolNameCeiling := ["communicate"]
  resumable := true

/-- A child runs under its parent when the parent's subtree is stopped. -/
def stoppedSubtree : List Event :=
  [{ kind := .delegateCreated, seq := 1, delegateId := "p", created := some ⟨plainDescriptor ""⟩ },
    { kind := .delegateCreated, seq := 2, delegateId := "c", created := some ⟨plainDescriptor "p"⟩ },
    { kind := .delegateRunStarted, seq := 3, delegateId := "c", runStarted := some ⟨1, .initial, 5⟩ },
    { kind := .delegateSubtreeStopRequested, seq := 4, delegateId := "p",
      subtreeStopRequested := some ⟨"p"⟩ }]

def permissiveJson : Json := ⟨fun _ => true, fun _ => []⟩

theorem fold_invariant_stoppedSubtree :
    ∃ state a, fold permissiveJson stoppedSubtree = .ok state ∧ aggregateOf state "c" = some a ∧
      a.phase = .stopping ∧ a.currentRunOpen = true ∧ a.pendingStopSeq = 4 ∧ a.Invariant := by
  obtain ⟨state, hstate⟩ : ∃ state, fold permissiveJson stoppedSubtree = .ok state := ⟨_, rfl⟩
  have hc : ((fold permissiveJson stoppedSubtree).toOption.bind fun state =>
      (aggregateOf state "c").map fun a => (a.phase, a.currentRunOpen, a.pendingStopSeq)) =
        some (.stopping, true, 4) := by decide
  rw [hstate] at hc
  obtain ⟨a, ha, hfields⟩ := map_eq_some_iff.mp hc
  simp only [Prod.mk.injEq] at hfields
  obtain ⟨hphase, hopen, hstop⟩ := hfields
  exact ⟨state, a, hstate, ha, hphase, hopen, hstop,
    (fold_invariant permissiveJson stoppedSubtree state hstate).1 "c" a ha⟩

end Evener.Delegatestore
