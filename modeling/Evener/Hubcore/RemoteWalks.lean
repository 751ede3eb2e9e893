/-
  Refresh walks over the remote cache, racing registrations and removals.

  A generation is given out once, so a captured generation that is still the source's own at
  the publish names the registration the rows were read under (`Fresh.read`).
-/
import Mathlib.Data.List.Induction
import Evener.Hubcore.RemoteCache

namespace Evener.Hubcore

open Evener.Lib Function Option
open List hiding lookup lookup_cons

variable {β : Type}

/-! ## Snapshots up to nil -/

namespace RemoteSourceSnapshot

@[simp] theorem normalize_normalize (s : RemoteSourceSnapshot β) :
    s.normalize.normalize = s.normalize := rfl

@[simp] theorem normalize_clone (s : RemoteSourceSnapshot β) : s.clone.normalize = s.normalize := by
  unfold normalize clone cloneIDs
  by_cases h : s.incompleteIDs.getD [] = [] <;> simp [h]

end RemoteSourceSnapshot

/-- The entry of a source, nil slices as empty ones. -/
def entryIn (sources : RemoteSources β) (id : String) : Option (RemoteSourceSnapshot β) :=
  (lookup Prod.fst id sources).map (·.2.normalize)

theorem entryIn_map {f : RemoteSourceSnapshot β → RemoteSourceSnapshot β}
    (hf : ∀ s, (f s).normalize = s.normalize) (sources : RemoteSources β) (j : String) :
    entryIn (sources.map (Prod.map id f)) j = entryIn sources j := by
  unfold entryIn
  rw [lookup_map, Option.map_map]
  congr 1
  funext e
  exact hf e.2

theorem entryIn_filter (p : String → Bool) (sources : RemoteSources β) (id : String) :
    entryIn (sources.filter fun e => p e.1) id = if p id then entryIn sources id else none := by
  induction sources with
  | nil => simp [entryIn]
  | cons e sources ih =>
    unfold entryIn at ih ⊢
    by_cases he : e.1 = id
    · subst he
      by_cases hp : p e.1
      · simp [hp, lookup_cons]
      · simpa [filter_cons, hp] using ih
    · by_cases hp : p e.1
      · simpa [filter_cons, hp, lookup_cons, he] using ih
      · simpa [filter_cons, hp, lookup_cons, he] using ih

namespace RemoteThreadSnapshot

def rows (s : RemoteThreadSnapshot β) : List (RemoteThread β) := s.threads.getD []

def entry (s : RemoteThreadSnapshot β) (id : String) : Option (RemoteSourceSnapshot β) :=
  entryIn (s.sources.getD []) id

/-- The same content up to nil and empty. -/
structure Same (a b : RemoteThreadSnapshot β) : Prop where
  rows : a.rows = b.rows
  complete : a.complete = b.complete
  entry : ∀ id, a.entry id = b.entry id

theorem Same.refl (a : RemoteThreadSnapshot β) : a.Same a := ⟨rfl, rfl, fun _ => rfl⟩

theorem Same.symm {a b : RemoteThreadSnapshot β} (h : a.Same b) : b.Same a :=
  ⟨h.rows.symm, h.complete.symm, fun id => (h.entry id).symm⟩

theorem Same.trans {a b c : RemoteThreadSnapshot β} (h : a.Same b) (h' : b.Same c) : a.Same c :=
  ⟨h.rows.trans h'.rows, h.complete.trans h'.complete, fun id => (h.entry id).trans (h'.entry id)⟩

theorem same_normalize (s : RemoteThreadSnapshot β) :
    (normalizeRemoteThreadSnapshot s).Same s :=
  ⟨rfl, rfl, fun id =>
    entryIn_map RemoteSourceSnapshot.normalize_normalize (s.sources.getD []) id⟩

theorem same_clone (s : RemoteThreadSnapshot β) : (cloneRemoteThreadSnapshot s).Same s := by
  refine ⟨rfl, rfl, fun id => ?_⟩
  unfold entry cloneRemoteThreadSnapshot
  cases s.sources with
  | none => rfl
  | some sources => exact entryIn_map RemoteSourceSnapshot.normalize_clone sources id

end RemoteThreadSnapshot

/-! ## What the operations do to the snapshot -/

namespace RemoteThreadCache

theorem same_settled (c : RemoteThreadCache β) : c.settled.snapshot.Same c.snapshot := by
  refine ⟨rfl, rfl, fun id => ?_⟩
  unfold settled RemoteThreadSnapshot.entry
  cases c.snapshot.sources with
  | none => rfl
  | some sources => exact entryIn_map RemoteSourceSnapshot.normalize_normalize sources id

/-- One step of the generation: it stands for the content. -/
def Advances (c c' : RemoteThreadCache β) : Prop :=
  c'.snapshot.generation = c.snapshot.generation ∧ c'.snapshot.Same c.snapshot ∨
    c'.snapshot.generation = c.snapshot.generation + 1

theorem lookup_of_sameSources [DecidableEq β] {a b : RemoteSources β} (h : sameSources a b = true)
    (id : String) : lookup Prod.fst id a = lookup Prod.fst id b := by
  by_cases hid : id ∈ (a ++ b).map Prod.fst
  · exact of_decide_eq_true (all_eq_true.mp h id hid)
  · have hnone : ∀ l ⊆ a ++ b, lookup Prod.fst id l = none := fun l hl =>
      lookup_eq_none.mpr fun e he heq => hid (mem_map.mpr ⟨e, hl he, heq⟩)
    rw [hnone a (subset_append_left a b), hnone b (subset_append_right a b)]

/-- A walk leaves what it read without the stale sources, whether or not that is something new. -/
theorem storeWalkSnapshot_spec [DecidableEq β] (c : RemoteThreadCache β) (s : RemoteThreadSnapshot β)
    (captured : String → Option Nat) :
    (c.storeWalkSnapshot s captured).generations = c.generations ∧
    (c.storeWalkSnapshot s captured).nextGeneration = c.nextGeneration ∧
    c.Advances (c.storeWalkSnapshot s captured) ∧
    (c.storeWalkSnapshot s captured).snapshot.Same (c.withoutStaleSources s (some captured)) := by
  have hnormal := RemoteThreadSnapshot.same_normalize (c.withoutStaleSources s (some captured))
  unfold storeWalkSnapshot publish
  dsimp only
  split
  · next hsame =>
    obtain ⟨hthreads, hcomplete, hsources⟩ := hsame
    refine ⟨rfl, rfl, .inl ⟨rfl, same_settled c⟩, (same_settled c).trans ?_⟩
    refine ((RemoteThreadSnapshot.same_normalize c.snapshot).symm.trans ?_).trans hnormal
    refine ⟨congrArg (·.getD []) hthreads, hcomplete, fun id => ?_⟩
    unfold RemoteThreadSnapshot.entry entryIn
    rw [lookup_of_sameSources hsources id]
  · exact ⟨rfl, rfl, .inr rfl, (RemoteThreadSnapshot.same_clone _).trans
      ⟨hnormal.rows, hnormal.complete, hnormal.entry⟩⟩

theorem rows_withoutStaleSources (c : RemoteThreadCache β) (s : RemoteThreadSnapshot β)
    (captured : String → Option Nat) :
    (c.withoutStaleSources s (some captured)).rows = s.rows.filter fun thread =>
      !remoteThreadSourceStale thread (c.sourceStale s.sources captured) := rfl

theorem entry_withoutStaleSources (c : RemoteThreadCache β) (s : RemoteThreadSnapshot β)
    (captured : String → Option Nat) (id : String) :
    (c.withoutStaleSources s (some captured)).entry id =
      if c.sourceStale s.sources captured id then none else s.entry id := by
  unfold withoutStaleSources RemoteThreadSnapshot.entry
  dsimp only
  cases s.sources with
  | none => simp [entryIn]
  | some sources =>
    have h := entryIn_filter (fun id => !c.sourceStale (some sources) captured id) sources id
    rw [map_some, getD_some, h]
    by_cases hs : c.sourceStale (some sources) captured id <;> simp [hs]

theorem advances_removeSource (c : RemoteThreadCache β) (id : String) :
    c.Advances (c.removeSource id) := by
  unfold removeSource
  by_cases hid : id = ""
  · rw [if_pos hid]
    exact .inl ⟨rfl, .refl _⟩
  · rw [if_neg hid]
    dsimp only
    split
    · exact .inl ⟨rfl, same_settled _⟩
    · exact .inr rfl

theorem generations_removeSource (c : RemoteThreadCache β) {id : String} (hid : id ≠ "") :
    (c.removeSource id).generations = Function.update c.generations id none ∧
      (c.removeSource id).nextGeneration = c.nextGeneration := by
  unfold removeSource
  rw [if_neg hid]
  dsimp only
  split <;> exact ⟨rfl, rfl⟩

theorem rows_removeSource {c : RemoteThreadCache β} {id : String} (hid : id ≠ "") :
    (c.removeSource id).snapshot.rows =
      c.snapshot.rows.filter fun thread => !remoteThreadOwnedBySource thread id := by
  unfold removeSource
  rw [if_neg hid]
  dsimp only
  split
  · next h => exact (filter_eq_self.mpr (length_filter_eq_length_iff.mp h.2)).symm
  · rfl

theorem entry_removeSource {c : RemoteThreadCache β} {id : String} (hid : id ≠ "") (j : String) :
    (c.removeSource id).snapshot.entry j = if j = id then none else c.snapshot.entry j := by
  unfold removeSource
  rw [if_neg hid]
  dsimp only
  have hheld := (RemoteThreadSnapshot.same_normalize c.snapshot).entry j
  split
  · next h =>
    refine ((same_settled _).entry j).trans ?_
    split
    · next hj =>
      subst hj
      refine hheld.symm.trans ?_
      unfold RemoteThreadSnapshot.entry entryIn
      rw [h.1]
      rfl
    · rfl
  · refine ((RemoteThreadSnapshot.same_clone _).entry j).trans ?_
    unfold RemoteThreadSnapshot.entry entryIn at hheld ⊢
    rw [getD_some, lookup_erase]
    split
    · rfl
    · exact hheld

end RemoteThreadCache

/-! ## Walks -/

namespace RemoteWalks

/-- A refresh walk (`refreshRemoteThreadSnapshot`) before its publish. -/
structure Walk (β : Type) where
  readGenerations : String → Option Nat
  threads : List (RemoteThread β)
  sources : RemoteSources β
  /-- proof-only: the registration that was live when the walk read the source -/
  readUnder : String → Option Nat

def Walk.start : Walk β where
  readGenerations := fun _ => none
  threads := []
  sources := []
  readUnder := fun _ => none

def Walk.has (walk : Walk β) (id : String) : Bool := (lookup Prod.fst id walk.sources).isSome

/-- A source takes part in a walk once: under its entry the rows that name it. -/
def Walk.contribute (walk : Walk β) (id : String) (source : RemoteSourceSnapshot β) : Walk β :=
  { walk with
    threads := walk.threads ++ source.threads.getD []
    sources := put Prod.fst (id, source) walk.sources }

def Walk.capture (walk : Walk β) (id : String) (generation : Nat) : Walk β :=
  { walk with readGenerations := Function.update walk.readGenerations id (some generation) }

def Walk.under (walk : Walk β) (id : String) (registration : Option Nat) : Walk β :=
  { walk with readUnder := Function.update walk.readUnder id registration }

/-- The rows of an entry name its source. -/
def Owned (id : String) (source : RemoteSourceSnapshot β) : Bool :=
  (source.threads.getD []).all fun thread => remoteThreadSourceID thread = some id

inductive Event (β : Type) where
  | register (id : String)
  | remove (id : String)
  | capture (walk : Nat) (id : String)
  | read (walk : Nat) (id : String) (source : RemoteSourceSnapshot β)
  | tombstone (walk : Nat) (id : String) (source : RemoteSourceSnapshot β)
  | store (walk : Nat) (complete : Bool)

structure World (β : Type) where
  cache : RemoteThreadCache β
  walks : Nat → Walk β
  /-- proof-only: how many registrations there have been -/
  registrations : Nat
  /-- proof-only: the number of the registration that a name stands for -/
  live : String → Option Nat

def World.start : World β where
  cache := .empty
  walks := fun _ => .start
  registrations := 0
  live := fun _ => none

def World.setWalk (w : World β) (i : Nat) (walk : Walk β) : World β :=
  { w with walks := Function.update w.walks i walk }

variable [DecidableEq β]

/-- The event as one step; an event out of its place in a walk does nothing. -/
def World.step (w : World β) : Event β → World β
  | .register id =>
    if id = "" then w
    else
      { w with
        cache := w.cache.registerSource id
        registrations := w.registrations + 1
        live := Function.update w.live id (some (w.registrations + 1)) }
  | .remove id =>
    if id = "" then w
    else { w with cache := w.cache.removeSource id, live := Function.update w.live id none }
  | .capture i id =>
    let walk := w.walks i
    if walk.has id then w
    else
      match w.cache.sourceGeneration id with
      | none => w
      | some generation => w.setWalk i (walk.capture id generation)
  | .read i id source =>
    let walk := w.walks i
    if walk.has id ∨ ¬ Owned id source ∨ source.tombstoned then w
    else w.setWalk i ((walk.contribute id source).under id (w.live id))
  | .tombstone i id source =>
    let walk := w.walks i
    -- a name that the walk has read keeps its rows
    if walk.has id ∨ ¬ Owned id source ∨ ¬ source.tombstoned then w
    else w.setWalk i (walk.contribute id source)
  | .store i complete =>
    let walk := w.walks i
    { w.setWalk i .start with
      cache := w.cache.storeWalkSnapshot
        { threads := some walk.threads
          complete := complete
          sources := some walk.sources
          generation := 0 }
        walk.readGenerations }

def run (events : List (Event β)) : World β := events.foldl World.step .start

theorem run_append (events more : List (Event β)) :
    run (events ++ more) = more.foldl World.step (run events) := foldl_append

theorem run_concat (events : List (Event β)) (e : Event β) :
    run (events ++ [e]) = (run events).step e := by
  rw [run_append]
  rfl

/-! ## The generation stands for the content -/

theorem advances_step (w : World β) (e : Event β) : w.cache.Advances (w.step e).cache := by
  have hsame : w.cache.Advances w.cache := .inl ⟨rfl, .refl _⟩
  cases e with
  | register id =>
    unfold World.step RemoteThreadCache.registerSource
    dsimp only
    by_cases hid : id = ""
    · rw [if_pos hid]
      exact hsame
    · rw [if_neg hid, if_neg hid]
      exact .inl ⟨rfl, .refl _⟩
  | remove id =>
    unfold World.step
    dsimp only
    by_cases hid : id = ""
    · rw [if_pos hid]
      exact hsame
    · rw [if_neg hid]
      exact RemoteThreadCache.advances_removeSource w.cache id
  | capture i id =>
    unfold World.step
    dsimp only
    split
    · exact hsame
    · split <;> exact hsame
  | read i id source =>
    unfold World.step
    dsimp only
    split <;> exact hsame
  | tombstone i id source =>
    unfold World.step
    dsimp only
    split <;> exact hsame
  | store i complete =>
    exact (RemoteThreadCache.storeWalkSnapshot_spec w.cache
      { threads := some (w.walks i).threads
        complete := complete
        sources := some (w.walks i).sources
        generation := 0 } (w.walks i).readGenerations).2.2.1

theorem generation_foldl (events : List (Event β)) (w : World β) :
    w.cache.snapshot.generation ≤ (events.foldl World.step w).cache.snapshot.generation ∧
    ((events.foldl World.step w).cache.snapshot.generation = w.cache.snapshot.generation →
      (events.foldl World.step w).cache.snapshot.Same w.cache.snapshot) := by
  induction events generalizing w with
  | nil => exact ⟨Nat.le_refl _, fun _ => .refl _⟩
  | cons e events ih =>
    obtain ⟨hle, hsame⟩ := ih (w.step e)
    rw [foldl_cons]
    obtain ⟨hgeneration, hheld⟩ | hgeneration := advances_step w e
    · rw [hgeneration] at hle hsame
      exact ⟨hle, fun h => (hsame h).trans hheld⟩
    · exact ⟨by omega, fun h => by omega⟩

/-! ## A captured generation names one registration -/

/-- What a walk holds, beside the registrations there are. -/
structure Walk.Fresh (walk : Walk β) (live : String → Option Nat) (registrations : Nat) : Prop where
  captured : ∀ id n, walk.readGenerations id = some n → 1 ≤ n ∧ n ≤ registrations
  read : ∀ id source n, entryIn walk.sources id = some source → source.tombstoned = false →
    walk.readGenerations id = some n → live id = some n → walk.readUnder id = some n
  owned : ∀ row ∈ walk.threads,
    ∃ id source, remoteThreadSourceID row = some id ∧ entryIn walk.sources id = some source

structure Fresh (w : World β) : Prop where
  generations : w.cache.generations = w.live
  next : w.cache.nextGeneration = w.registrations
  live : ∀ id n, w.live id = some n → 1 ≤ n ∧ n ≤ w.registrations
  unnamed : w.live "" = none
  walks : ∀ i, (w.walks i).Fresh w.live w.registrations

omit [DecidableEq β] in
theorem fresh_start_walk (live : String → Option Nat) (registrations : Nat) :
    (Walk.start (β := β)).Fresh live registrations := by
  refine ⟨fun id n h => ?_, fun id source n h => ?_, fun row h => ?_⟩
  · cases h
  · cases h
  · cases h

omit [DecidableEq β] in
/-- A new registration, and a removal, make no captured generation current. -/
theorem Walk.Fresh.moved {walk : Walk β} {live live' : String → Option Nat} {r r' : Nat}
    (h : walk.Fresh live r) (hr : r ≤ r')
    (hlive : ∀ id n, n ≤ r → live' id = some n → live id = some n) : walk.Fresh live' r' := by
  refine ⟨fun id n hn => ?_, fun id source n hsource hread hn hlive' => ?_, h.owned⟩
  · have := h.captured id n hn
    omega
  · exact h.read id source n hsource hread hn (hlive id n (h.captured id n hn).2 hlive')

omit [DecidableEq β] in
theorem Fresh.setWalk {w : World β} (h : Fresh w) (i : Nat) {walk : Walk β}
    (hwalk : walk.Fresh w.live w.registrations) : Fresh (w.setWalk i walk) := by
  refine ⟨h.generations, h.next, h.live, h.unnamed, fun j => ?_⟩
  unfold World.setWalk
  dsimp only
  by_cases hj : j = i
  · subst hj
    rw [update_self]
    exact hwalk
  · rw [update_of_ne hj]
    exact h.walks j

omit [DecidableEq β] in
theorem entryIn_put (id j : String) (source : RemoteSourceSnapshot β) (sources : RemoteSources β) :
    entryIn (put Prod.fst (id, source) sources) j =
      if id = j then some source.normalize else entryIn sources j := by
  unfold entryIn
  rw [lookup_put]
  split <;> rfl

omit [DecidableEq β] in
theorem entryIn_of_has {walk : Walk β} {id : String} (h : walk.has id = false) :
    entryIn walk.sources id = none := by
  unfold Walk.has at h
  unfold entryIn
  rw [isSome_eq_false_iff, isNone_iff_eq_none] at h
  rw [h]
  rfl

omit [DecidableEq β] in
theorem owner_of_owned {id : String} {source : RemoteSourceSnapshot β}
    (h : Owned id source = true) {row : RemoteThread β} (hrow : row ∈ source.threads.getD []) :
    remoteThreadSourceID row = some id :=
  of_decide_eq_true (all_eq_true.mp h row hrow)

omit [DecidableEq β] in
theorem entry_contribute (walk : Walk β) (id j : String) (source : RemoteSourceSnapshot β) :
    entryIn (walk.contribute id source).sources j =
      if id = j then some source.normalize else entryIn walk.sources j :=
  entryIn_put id j source walk.sources

omit [DecidableEq β] in
theorem owned_contribute {walk : Walk β} {live : String → Option Nat} {r : Nat}
    (h : walk.Fresh live r) {id : String} {source : RemoteSourceSnapshot β}
    (howned : Owned id source = true) :
    ∀ row ∈ (walk.contribute id source).threads, ∃ j source',
      remoteThreadSourceID row = some j ∧
        entryIn (walk.contribute id source).sources j = some source' := by
  intro row hrow
  obtain hrow | hrow := mem_append.mp hrow
  · obtain ⟨j, source', hj, hsource'⟩ := h.owned row hrow
    by_cases hid : id = j
    · exact ⟨j, _, hj, (entry_contribute walk id j source).trans (if_pos hid)⟩
    · exact ⟨j, _, hj, ((entry_contribute walk id j source).trans (if_neg hid)).trans hsource'⟩
  · exact ⟨id, _, owner_of_owned howned hrow, (entry_contribute walk id id source).trans (if_pos rfl)⟩

omit [DecidableEq β] in
theorem fresh_capture {w : World β} (h : Fresh w) {i : Nat} {id : String} {n : Nat}
    (hhas : (w.walks i).has id = false) (hn : w.cache.generations id = some n) :
    ((w.walks i).capture id n).Fresh w.live w.registrations := by
  have hwalk := h.walks i
  unfold Walk.capture
  refine ⟨fun j m hm => ?_, fun j source m hsource hread hm hlive => ?_, hwalk.owned⟩ <;>
    dsimp only at *
  · by_cases hj : j = id
    · subst hj
      rw [update_self, Option.some.injEq] at hm
      subst hm
      rw [h.generations] at hn
      exact h.live j n hn
    · rw [update_of_ne hj] at hm
      exact hwalk.captured j m hm
  · by_cases hj : j = id
    · subst hj
      cases (entryIn_of_has hhas).symm.trans hsource
    · rw [update_of_ne hj] at hm
      exact hwalk.read j source m hsource hread hm hlive

omit [DecidableEq β] in
theorem fresh_read {w : World β} (h : Fresh w) {i : Nat} {id : String}
    {source : RemoteSourceSnapshot β} (howned : Owned id source = true) :
    (((w.walks i).contribute id source).under id (w.live id)).Fresh w.live w.registrations := by
  have hwalk := h.walks i
  refine ⟨hwalk.captured, fun j source' m hsource' hread hm hlive => ?_,
    owned_contribute hwalk howned⟩
  by_cases hj : j = id
  · subst hj
    exact (update_self ..).trans hlive
  · have hentry := (entry_contribute (w.walks i) id j source).trans (if_neg (Ne.symm hj))
    refine (update_of_ne hj ..).trans ?_
    exact hwalk.read j source' m (hentry.symm.trans hsource') hread hm hlive

omit [DecidableEq β] in
theorem fresh_tombstone {w : World β} (h : Fresh w) {i : Nat} {id : String}
    {source : RemoteSourceSnapshot β} (howned : Owned id source = true)
    (htombstoned : source.tombstoned = true) :
    ((w.walks i).contribute id source).Fresh w.live w.registrations := by
  have hwalk := h.walks i
  refine ⟨hwalk.captured, fun j source' m hsource' hread hm hlive => ?_,
    owned_contribute hwalk howned⟩
  by_cases hj : id = j
  · have hentry := (entry_contribute (w.walks i) id j source).trans (if_pos hj)
    obtain rfl := some.inj (hentry.symm.trans hsource')
    cases htombstoned.symm.trans hread
  · have hentry := (entry_contribute (w.walks i) id j source).trans (if_neg hj)
    exact hwalk.read j source' m (hentry.symm.trans hsource') hread hm hlive

theorem fresh_step {w : World β} (h : Fresh w) (e : Event β) : Fresh (w.step e) := by
  cases e with
  | register id =>
    unfold World.step RemoteThreadCache.registerSource
    dsimp only
    by_cases hid : id = ""
    · rw [if_pos hid]
      exact h
    · rw [if_neg hid, if_neg hid]
      refine ⟨by rw [h.generations, h.next], congrArg (· + 1) h.next, fun j n hn => ?_,
        (update_of_ne (Ne.symm hid) ..).trans h.unnamed,
        fun i => (h.walks i).moved (Nat.le_succ _) fun j n hle hn => ?_⟩
      · dsimp only at hn ⊢
        by_cases hj : j = id
        · subst hj
          rw [update_self, Option.some.injEq] at hn
          omega
        · rw [update_of_ne hj] at hn
          have := h.live j n hn
          omega
      · dsimp only at hn
        by_cases hj : j = id
        · subst hj
          rw [update_self, Option.some.injEq] at hn
          omega
        · rwa [update_of_ne hj] at hn
  | remove id =>
    unfold World.step
    dsimp only
    by_cases hid : id = ""
    · rw [if_pos hid]
      exact h
    · rw [if_neg hid]
      have hlive : ∀ j n, Function.update w.live id none j = some n → w.live j = some n := by
        intro j n hn
        by_cases hj : j = id
        · subst hj
          rw [update_self] at hn
          cases hn
        · rwa [update_of_ne hj] at hn
      obtain ⟨hgenerations, hnext⟩ := RemoteThreadCache.generations_removeSource w.cache hid
      exact ⟨by rw [← h.generations]; exact hgenerations, hnext.trans h.next,
        fun j n hn => h.live j n (hlive j n hn),
        (update_of_ne (Ne.symm hid) ..).trans h.unnamed,
        fun i => (h.walks i).moved (Nat.le_refl _) fun j n _ hn => hlive j n hn⟩
  | capture i id =>
    unfold World.step RemoteThreadCache.sourceGeneration
    dsimp only
    split
    · exact h
    · next hhas =>
      split
      · exact h
      · next n hn => exact h.setWalk i (fresh_capture h (Bool.eq_false_iff.mpr hhas) hn)
  | read i id source =>
    unfold World.step
    dsimp only
    split
    · exact h
    · next hguard =>
      simp only [not_or, not_not] at hguard
      exact h.setWalk i (fresh_read h hguard.2.1)
  | tombstone i id source =>
    unfold World.step
    dsimp only
    split
    · exact h
    · next hguard =>
      simp only [not_or, not_not] at hguard
      exact h.setWalk i (fresh_tombstone h hguard.2.1 hguard.2.2)
  | store i complete =>
    obtain ⟨hgenerations, hnext, -⟩ := RemoteThreadCache.storeWalkSnapshot_spec w.cache
      { threads := some (w.walks i).threads
        complete := complete
        sources := some (w.walks i).sources
        generation := 0 } (w.walks i).readGenerations
    have hreset := h.setWalk i (fresh_start_walk w.live w.registrations)
    exact ⟨hgenerations.trans h.generations, hnext.trans h.next, h.live, h.unnamed, hreset.walks⟩

theorem fresh_run (events : List (Event β)) : Fresh (run events) := by
  induction events using List.reverseRecOn with
  | nil => exact ⟨rfl, rfl, fun id n hn => (nomatch hn), rfl, fun i => fresh_start_walk _ _⟩
  | append_singleton events e ih =>
    rw [run_concat]
    exact fresh_step ih e

/-! ## What the snapshot shows -/

/-- The walk that published last published what `shows` says for the source `id`: under a
tombstone while the name was not registered, else read under the registration that was then the
source's own, with no removal of the source since. -/
def Accounted (events : List (Event β)) (id : String) (tombstoned : Bool)
    (shows : Walk β → Prop) : Prop :=
  ∃ before i complete after, events = before ++ .store i complete :: after ∧
    (∀ j again, .store j again ∉ after) ∧ shows ((run before).walks i) ∧
    if tombstoned then (run before).live id = none
    else
      .remove id ∉ after ∧ ∃ registration, (run before).live id = some registration ∧
        ((run before).walks i).readUnder id = some registration

theorem Accounted.extend {events : List (Event β)} {id : String} {tombstoned : Bool}
    {shows : Walk β → Prop} (h : Accounted events id tombstoned shows) {e : Event β}
    (hstore : ∀ j again, e ≠ .store j again) (he : id ≠ "" → e ≠ .remove id) :
    Accounted (events ++ [e]) id tombstoned shows := by
  obtain ⟨before, i, complete, after, rfl, hlast, hshows, hlive⟩ := h
  refine ⟨before, i, complete, after ++ [e], by simp, fun j again hmem => ?_, hshows, ?_⟩
  · obtain hmem | hmem := mem_append.mp hmem
    · exact hlast j again hmem
    · exact hstore j again (mem_singleton.mp hmem).symm
  split
  · next ht => rwa [if_pos ht] at hlive
  · next ht =>
    rw [if_neg ht] at hlive
    obtain ⟨hremove, registration, hregistration, hread⟩ := hlive
    have hid : id ≠ "" := by
      rintro rfl
      cases (fresh_run before).unnamed.symm.trans hregistration
    refine ⟨fun hmem => ?_, registration, hregistration, hread⟩
    obtain hmem | hmem := mem_append.mp hmem
    · exact hremove hmem
    · exact he hid (mem_singleton.mp hmem).symm

/-- Every entry and every row of the snapshot has been published rightly. -/
structure Shown (events : List (Event β)) (s : RemoteThreadSnapshot β) : Prop where
  entries : ∀ id source, s.entry id = some source →
    Accounted events id source.tombstoned fun walk => entryIn walk.sources id = some source
  rows : ∀ row ∈ s.rows, ∃ id source, remoteThreadSourceID row = some id ∧
    s.entry id = some source ∧ Accounted events id source.tombstoned fun walk => row ∈ walk.threads

theorem Shown.of_same {events : List (Event β)} {s s' : RemoteThreadSnapshot β}
    (h : Shown events s) (hs : s'.Same s) : Shown events s' := by
  refine ⟨fun id source hsource => h.entries id source (hs.entry id ▸ hsource), fun row hrow => ?_⟩
  obtain ⟨id, source, hid, hsource, haccounted⟩ := h.rows row (hs.rows ▸ hrow)
  exact ⟨id, source, hid, (hs.entry id).trans hsource, haccounted⟩

theorem Shown.extend {events : List (Event β)} {s : RemoteThreadSnapshot β}
    (h : Shown events s) {e : Event β} (hstore : ∀ j again, e ≠ .store j again)
    (he : ∀ id, id ≠ "" → e ≠ .remove id) : Shown (events ++ [e]) s := by
  refine ⟨fun id source hsource => (h.entries id source hsource).extend hstore (he id),
    fun row hrow => ?_⟩
  obtain ⟨id, source, hid, hsource, haccounted⟩ := h.rows row hrow
  exact ⟨id, source, hid, hsource, haccounted.extend hstore (he id)⟩

theorem shown_remove {events : List (Event β)} (h : Shown events (run events).cache.snapshot)
    (id : String) : Shown (events ++ [.remove id]) ((run events).step (.remove id)).cache.snapshot := by
  unfold World.step
  dsimp only
  have hother : ∀ {j : String}, j ≠ id → (.remove id : Event β) ≠ .remove j := by
    intro j hj heq
    injection heq with heq
    exact hj heq.symm
  by_cases hid : id = ""
  · rw [if_pos hid]
    exact h.extend nofun fun j hj => hother fun heq => hj (heq.trans hid)
  · rw [if_neg hid]
    refine ⟨fun j source hsource => ?_, fun row hrow => ?_⟩
    · rw [RemoteThreadCache.entry_removeSource hid] at hsource
      split at hsource
      · cases hsource
      · next hj => exact (h.entries j source hsource).extend nofun fun _ => hother hj
    · rw [RemoteThreadCache.rows_removeSource hid] at hrow
      obtain ⟨hrow, howner⟩ := mem_filter.mp hrow
      obtain ⟨j, source, hj, hsource, haccounted⟩ := h.rows row hrow
      have hne : j ≠ id := by
        rintro rfl
        simp [remoteThreadOwnedBySource, hj] at howner
      refine ⟨j, source, hj, ?_, haccounted.extend nofun fun _ => hother hne⟩
      rw [RemoteThreadCache.entry_removeSource hid, if_neg hne]
      exact hsource

/-- A source that the publish keeps is rightly published. -/
theorem accounted_store (events : List (Event β)) (i : Nat) (complete : Bool) {id : String}
    {source : RemoteSourceSnapshot β}
    (hsource : entryIn ((run events).walks i).sources id = some source)
    (hstale : (run events).cache.sourceStale (some ((run events).walks i).sources)
      ((run events).walks i).readGenerations id = false)
    {shows : Walk β → Prop} (hshows : shows ((run events).walks i)) :
    Accounted (events ++ [.store i complete]) id source.tombstoned shows := by
  have hfresh := fresh_run events
  have htombstoned : RemoteThreadCache.tombstonedIn (some ((run events).walks i).sources) id =
      source.tombstoned := by
    unfold RemoteThreadCache.tombstonedIn
    unfold entryIn at hsource
    obtain ⟨e, he, rfl⟩ := map_eq_some_iff.mp hsource
    rw [getD_some, he]
    rfl
  refine ⟨events, i, complete, [], rfl, fun _ _ => not_mem_nil, hshows, ?_⟩
  unfold RemoteThreadCache.sourceStale at hstale
  rw [htombstoned, hfresh.generations] at hstale
  split
  · next ht =>
    rw [if_pos ht] at hstale
    exact isNone_iff_eq_none.mp (isSome_eq_false_iff.mp hstale)
  · next ht =>
    rw [if_neg ht] at hstale
    refine ⟨not_mem_nil, ?_⟩
    cases hcaptured : ((run events).walks i).readGenerations id with
    | none =>
      rw [hcaptured] at hstale
      cases hstale
    | some n =>
      rw [hcaptured] at hstale
      have hn : ((run events).live id).getD 0 = n := by simpa using hstale
      -- a captured generation is positive, so the entry is not a missing one
      have hpositive := ((hfresh.walks i).captured id n hcaptured).1
      have hlive : (run events).live id = some n := by
        cases hl : (run events).live id with
        | none =>
          rw [hl, getD_none] at hn
          omega
        | some m =>
          rw [hl, getD_some] at hn
          rw [hn]
      exact ⟨n, hlive, (hfresh.walks i).read id source n hsource
        (Bool.eq_false_iff.mpr ht) hcaptured hlive⟩

theorem shown_store (events : List (Event β)) (i : Nat) (complete : Bool) :
    Shown (events ++ [.store i complete])
      ((run events).step (.store i complete)).cache.snapshot := by
  have hwalk := (fresh_run events).walks i
  unfold World.step
  refine Shown.of_same ⟨fun id source hsource => ?_, fun row hrow => ?_⟩
    (RemoteThreadCache.storeWalkSnapshot_spec (run events).cache
      { threads := some ((run events).walks i).threads
        complete := complete
        sources := some ((run events).walks i).sources
        generation := 0 } ((run events).walks i).readGenerations).2.2.2
  · rw [RemoteThreadCache.entry_withoutStaleSources] at hsource
    split at hsource
    · cases hsource
    · next hstale =>
      exact accounted_store events i complete hsource (Bool.eq_false_iff.mpr hstale) hsource
  · rw [RemoteThreadCache.rows_withoutStaleSources] at hrow
    obtain ⟨hrow, hkept⟩ := mem_filter.mp hrow
    obtain ⟨id, source, hid, hsource⟩ := hwalk.owned row hrow
    unfold remoteThreadSourceStale at hkept
    rw [hid, Bool.not_eq_true'] at hkept
    refine ⟨id, source, hid, ?_, accounted_store events i complete hsource hkept hrow⟩
    rw [RemoteThreadCache.entry_withoutStaleSources, if_neg (Bool.eq_false_iff.mp hkept)]
    exact hsource

theorem shown_run (events : List (Event β)) : Shown events (run events).cache.snapshot := by
  induction events using List.reverseRecOn with
  | nil => exact ⟨fun id source hsource => (nomatch hsource), fun row hrow => nomatch hrow⟩
  | append_singleton events e ih =>
    rw [run_concat]
    cases e with
    | remove id => exact shown_remove ih id
    | store i complete => exact shown_store events i complete
    | register id =>
      have hkept : ((run events).step (.register id)).cache.snapshot =
          (run events).cache.snapshot := by
        unfold World.step RemoteThreadCache.registerSource
        dsimp only
        split <;> simp_all
      rw [hkept]
      exact ih.extend nofun nofun
    | capture i id =>
      have hkept : ((run events).step (.capture i id)).cache = (run events).cache := by
        unfold World.step
        dsimp only
        split
        · rfl
        · split <;> rfl
      rw [hkept]
      exact ih.extend nofun nofun
    | read i id source =>
      have hkept : ((run events).step (.read i id source)).cache = (run events).cache := by
        unfold World.step
        dsimp only
        split <;> rfl
      rw [hkept]
      exact ih.extend nofun nofun
    | tombstone i id source =>
      have hkept : ((run events).step (.tombstone i id source)).cache = (run events).cache := by
        unfold World.step
        dsimp only
        split <;> rfl
      rw [hkept]
      exact ih.extend nofun nofun

/-- At every moment all that the snapshot shows is what the last walk to publish read, under a
registration that was then the source's own and has not been removed since, or tombstoned for a
name that was not registered then; and the generation stands for the content. -/
theorem snapshot_accounted (events more : List (Event β)) :
    (∀ row ∈ (run events).cache.snapshot.rows, ∃ id source,
      remoteThreadSourceID row = some id ∧ (run events).cache.snapshot.entry id = some source ∧
      Accounted events id source.tombstoned fun walk => row ∈ walk.threads) ∧
    (∀ id source, (run events).cache.snapshot.entry id = some source →
      Accounted events id source.tombstoned fun walk =>
        entryIn walk.sources id = some source) ∧
    (run events).cache.snapshot.generation ≤ (run (events ++ more)).cache.snapshot.generation ∧
    ((run (events ++ more)).cache.snapshot.generation = (run events).cache.snapshot.generation →
      (run (events ++ more)).cache.snapshot.Same (run events).cache.snapshot) := by
  obtain ⟨hle, hsame⟩ := generation_foldl more (run events)
  rw [← run_append] at hle hsame
  exact ⟨(shown_run events).rows, (shown_run events).entries, hle, hsame⟩

/-- The rows of a source as its registration hands them out. -/
def listed (ref : String) : RemoteSourceSnapshot Unit where
  threads := some [{ source := "", ref := ref, rest := () }]
  complete := true
  incompleteIDs := none
  tombstoned := false
  rowsTruncated := false

/-- Walk 0 reads before a removal and a new registration, walk 1 after them; walk 0 publishes
last. -/
def readd : List (Event Unit) :=
  [.register "east", .capture 0 "east", .read 0 "east" (listed "east:old"), .remove "east",
    .register "east", .capture 1 "east", .read 1 "east" (listed "east:new"), .store 1 true]

example : (run (readd ++ [.store 0 true])).cache.snapshot.rows = [] := by decide

theorem readd_accounted : ∃ id source,
    remoteThreadSourceID (β := Unit) ⟨"", "east:new", ()⟩ = some id ∧
    (run readd).cache.snapshot.entry id = some source ∧
    Accounted readd id source.tombstoned fun walk => ⟨"", "east:new", ()⟩ ∈ walk.threads :=
  (snapshot_accounted readd [.store 0 true]).1 ⟨"", "east:new", ()⟩ (by decide)

end RemoteWalks

end Evener.Hubcore
