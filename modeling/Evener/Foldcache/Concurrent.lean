/-
  Any number of calls at once, with the files changing at any moment.

  `advance` and `fly` take one atomic step of a call and of the flight of a path, which the first
  call to join starts.
-/
import Evener.Lib.CheckedFold
import Evener.Lib.KeyedList
import Evener.Foldcache.Growing
import Evener.Foldcache.Sequential

namespace Evener.Foldcache

open Evener.Lib Evener.Lib.Prog
open List hiding lookup

inductive Phase (T : Type) where
  | looking (program : Program T (Arrival T))
  | waiting (flight : Nat)
  | done (outcome : Except Failure (Result T))

structure Call (T : Type) where
  path : String
  phase : Phase T

structure Flight (T : Type) where
  id : Nat
  path : String
  program : Program T (Result T)

/-- What a flight came to, for the calls that joined it. -/
structure Landing (T : Type) where
  id : Nat
  path : String
  outcome : Except Failure (Result T)

/-- `flights` has one flight for a path at most; `flown` is the next flight's id. -/
structure System (T : Type) where
  world : World T
  calls : List (Call T) := []
  flights : List (Flight T) := []
  landed : List (Landing T) := []
  flown : Nat := 0

inductive Step where
  | change (path : String) (file : Option File)
  | spawn (canceled : Bool) (path : String)
  | advance (i : Nat)
  | fly (path : String)
  | receive (i : Nat)
  | cancel (i : Nat)

variable {T : Type}

def System.setPhase (s : System T) (i : Nat) (path : String) (phase : Phase T) : System T :=
  { s with calls := s.calls.set i ⟨path, phase⟩ }

section Steps

variable (disk : Disk) (maxEntries : Int) (zero : T) (extend : Extend T)

/-- `group.DoChan`: join the flight of the path, or start it. -/
def System.join (s : System T) (i : Nat) (path : String) (info : FileInfo) : System T :=
  match lookup Flight.path path s.flights with
  | some flight => s.setPhase i path (.waiting flight.id)
  | none =>
    { s.setPhase i path (.waiting s.flown) with
      flights := s.flights ++ [⟨s.flown, path, refresh disk maxEntries zero extend path info⟩]
      flown := s.flown + 1 }

def System.advance (s : System T) (i : Nat) (path : String) : Program T (Arrival T) → System T
  | .act next write =>
    { s.setPhase i path (.looking (next s.world)) with world := write s.world }
  | .raise e => s.setPhase i path (.done (.error e))
  | .ret (.answer result) => s.setPhase i path (.done (.ok result))
  | .ret (.join info) => s.join disk maxEntries zero extend i path info

/-- `finishFlight`, and the outcome goes to the calls that wait. -/
def System.land (s : System T) (flight : Flight T) (outcome : Except Failure (Result T)) :
    System T :=
  { s with
    flights := erase Flight.path flight.path s.flights
    landed := s.landed ++ [⟨flight.id, flight.path, outcome⟩] }

def System.fly (s : System T) (flight : Flight T) : System T :=
  match flight.program with
  | .act next write =>
    { s with
      world := write s.world
      flights := put Flight.path { flight with program := next s.world } s.flights }
  | .raise e => s.land flight (.error e)
  | .ret result => s.land flight (.ok result)

def System.step (s : System T) : Step → System T
  | .change path file =>
    { s with world := { s.world with files := Function.update s.world.files path file } }
  | .spawn canceled path =>
    { s with calls := s.calls ++
        [⟨path, .looking (front disk maxEntries zero extend canceled path)⟩] }
  | .advance i =>
    match s.calls[i]? with
    | some ⟨path, .looking program⟩ => s.advance disk maxEntries zero extend i path program
    | _ => s
  | .fly path =>
    match lookup Flight.path path s.flights with
    | some flight => s.fly flight
    | none => s
  | .receive i =>
    match s.calls[i]? with
    | some ⟨path, .waiting id⟩ =>
      match s.landed.find? fun l => l.id == id && l.path == path with
      | some landing => s.setPhase i path (.done landing.outcome)
      | none => s
    | _ => s
  | .cancel i =>
    match s.calls[i]? with
    | some ⟨path, .waiting _⟩ => s.setPhase i path (.done (.error .canceled))
    | _ => s

def runSystem (files : String → Option File) (steps : List Step) : System T :=
  steps.foldl (System.step disk maxEntries zero extend) { world := { files := files } }

end Steps

/-- The file at the path is only appended to, each append changing its size and mtime. -/
def System.Appends (p : String) (s : System T) : Step → Prop
  | .change path file =>
    path = p → match s.world.files p, file with
      | some old, some new => old.bytes <+: new.bytes ∧ old.bytes.length < new.bytes.length ∧
          new.modTime ≠ old.modTime
      | _, _ => False
  | _ => True

instance (p : String) (s : System T) (step : Step) : Decidable (s.Appends p step) := by
  unfold System.Appends
  split
  · have (old new : Option File) : Decidable (match old, new with
        | some old, some new => old.bytes <+: new.bytes ∧ old.bytes.length < new.bytes.length ∧
            new.modTime ≠ old.modTime
        | _, _ => False) := by
      split <;> infer_instance
    infer_instance
  · infer_instance

/-- A call that becomes the owner of a flight for the path does not come with a stat whose
    size is below the recorded one. -/
def System.Fresh (p : String) (s : System T) : Step → Prop
  | .advance i =>
    match s.calls[i]? with
    | some ⟨path, .looking (.ret (.join info))⟩ =>
      path = p → lookup Flight.path p s.flights = none →
        ∀ st, s.world.cache.epochStates p = some st → st.size ≤ info.size
    | _ => True
  | _ => True

/-- The generations that successful calls for the path have answered in. -/
def System.epochs (p : String) (s : System T) : List Nat :=
  s.calls.filterMap fun call =>
    match call.phase with
    | .done (.ok result) => if call.path = p then some result.epoch else none
    | _ => none

/-! ## The invariant -/

variable {disk : Disk} {maxEntries : Int} {zero : T} {extend : Extend T} {p : String}
  {s : System T} {u v : World T}

def Call.Fine (p : String) (w : World T) (call : Call T) : Prop :=
  match call.phase with
  | .looking program =>
    Keeps (Grows p) (Own p) (Fitting p) (fun arrival w => call.path = p → arrival.Fine p w)
      program w
  | .waiting _ => True
  | .done outcome => call.path = p → ∀ result, outcome = .ok result → result.First

/-- The flight of the path relies on being the only one, the others on nothing. -/
def Flight.Fine (p : String) (w : World T) (flight : Flight T) : Prop :=
  (flight.path = p →
    Keeps (Own p) (Grows p) (Fitting p) (fun result _ => result.First) flight.program w) ∧
  (flight.path ≠ p → Keeps (Grows p) (Own p) (Fitting p) (fun _ _ => True) flight.program w)

structure System.Inv (p : String) (s : System T) : Prop where
  fits : Fitting p s.world
  keys : KeysNodup Flight.path s.flights
  calls : ∀ call ∈ s.calls, call.Fine p s.world
  flights : ∀ flight ∈ s.flights, flight.Fine p s.world
  landed : ∀ landing ∈ s.landed, landing.path = p →
    ∀ result, landing.outcome = .ok result → result.First

theorem Arrival.Fine.grows {arrival : Arrival T} (h : arrival.Fine p u) (hgrows : Grows p u v) :
    arrival.Fine p v := by
  cases arrival with
  | answer result => exact h
  | join info => exact Seen.grows h hgrows

theorem Call.Fine.grows {call : Call T} (h : call.Fine p u) (hgrows : Grows p u v) :
    call.Fine p v := by
  unfold Call.Fine at h ⊢
  split
  · next program hphase =>
    rw [hphase] at h
    exact keeps_rely h (fun h h' => h.trans h') (fun _ hfine hr hpath => (hfine hpath).grows hr) hgrows
  · trivial
  · next outcome hphase =>
    rw [hphase] at h
    exact h

variable {flight : Flight T} {path : String} {i : Nat}

theorem Flight.Fine.own (h : flight.Fine p u) (hown : Own p u v) : flight.Fine p v :=
  ⟨fun hpath => keeps_rely (h.1 hpath) (fun h h' => h.trans h') (fun _ hfirst _ => hfirst) hown,
    fun hpath => keeps_rely (h.2 hpath) (fun h h' => h.trans h') (fun _ _ _ => trivial) hown.1⟩

theorem Flight.Fine.grows (h : flight.Fine p u) (hgrows : Grows p u v) (hpath : flight.path ≠ p) :
    flight.Fine p v :=
  ⟨fun hsame => absurd hsame hpath, fun _ =>
    keeps_rely (h.2 hpath) (fun h h' => h.trans h') (fun _ _ _ => trivial) hgrows⟩

theorem System.Inv.setPhase (h : s.Inv p) {phase : Phase T}
    (hphase : Call.Fine p s.world ⟨path, phase⟩) : (s.setPhase i path phase).Inv p := by
  refine { h with calls := fun call hmem => ?_ }
  rcases mem_or_eq_of_mem_set hmem with hmem | rfl
  · exact h.calls call hmem
  · exact hphase

/-- A step that only moves the shared state, and leaves what is recorded for the path. -/
theorem System.Inv.own (h : s.Inv p) {w : World T} (hfits : Fitting p w) (hown : Own p s.world w) :
    System.Inv p { s with world := w } where
  fits := hfits
  keys := h.keys
  calls call hmem := (h.calls call hmem).grows hown.1
  flights flight hmem := (h.flights flight hmem).own hown
  landed := h.landed

theorem System.Inv.change (h : s.Inv p) {file : Option File}
    (happends : s.Appends p (.change path file)) :
    System.Inv p
      { s with world := { s.world with files := Function.update s.world.files path file } } := by
  by_cases hpath : path = p
  · have happends := happends hpath
    subst hpath
    obtain ⟨old, hold, hrecorded⟩ := h.fits
    rw [hold] at happends
    cases file with
    | none => exact happends.elim
    | some new =>
      have happended : Appended old new := ⟨happends.1, fun hsame => by omega⟩
      refine h.own ?_ ⟨fun file hfile => ?_, rfl⟩
      · exact ⟨new, Function.update_self .., fun st hst => (hrecorded st hst).appended happended⟩
      · rw [hold] at hfile
        cases hfile
        exact ⟨new, Function.update_self .., happended⟩
  · have hsame : Function.update s.world.files path file p = s.world.files p :=
      Function.update_of_ne (Ne.symm hpath) ..
    refine h.own ?_ ⟨fun old hold => ⟨old, hsame.trans hold, .refl old⟩, rfl⟩
    obtain ⟨old, hold, hrecorded⟩ := h.fits
    exact ⟨old, hsame.trans hold, hrecorded⟩

theorem front_fine {canceled : Bool} (w : World T) :
    Call.Fine p w ⟨path, .looking (front disk maxEntries zero extend canceled path)⟩ := by
  unfold Call.Fine
  by_cases hpath : path = p
  · subst hpath
    exact keeps_mono front_keeps fun _ _ hfine _ => hfine
  · exact keeps_mono ((minds_front hpath).keeps w) fun _ _ _ hsame => absurd hsame hpath

theorem System.Inv.join (hread : ∀ n, disk.readAt n = none) (h : s.Inv p) {info : FileInfo}
    (hseen : path = p → Seen p info s.world)
    (hfresh : path = p → lookup Flight.path p s.flights = none →
      ∀ st, s.world.cache.epochStates p = some st → st.size ≤ info.size) :
    (s.join disk maxEntries zero extend i path info).Inv p := by
  unfold System.join
  cases hlookup : lookup Flight.path path s.flights with
  | some flight => exact h.setPhase trivial
  | none =>
    have hwaiting : (s.setPhase i path (.waiting s.flown)).Inv p := h.setPhase trivial
    refine ⟨hwaiting.fits, ?_, hwaiting.calls, fun flight hmem => ?_, hwaiting.landed⟩
    · have hput := keysNodup_put h.keys
        ⟨s.flown, path, refresh disk maxEntries zero extend path info⟩
      rwa [put_eq_append (lookup_eq_none.mp hlookup)] at hput
    · rcases mem_append.mp hmem with hmem | hmem
      · exact h.flights flight hmem
      · rw [mem_singleton.mp hmem]
        refine ⟨fun hpath => ?_, fun hpath => (minds_refresh hpath).keeps _⟩
        have hpath : path = p := hpath
        subst hpath
        exact refresh_keeps hread (hseen rfl) (hfresh rfl hlookup)

theorem System.Inv.fly (h : s.Inv p) (hmem : flight ∈ s.flights) : (s.fly flight).Inv p := by
  have hland : ∀ outcome, (flight.path = p → ∀ result, outcome = .ok result → result.First) →
      (s.land flight outcome).Inv p := by
    intro outcome hfirst
    refine ⟨h.fits, keysNodup_erase h.keys _, h.calls, fun other hother => ?_,
      fun landing hlanding => ?_⟩
    · exact h.flights other (mem_erase.mp hother).1
    · rcases mem_append.mp hlanding with hlanding | hlanding
      · exact h.landed landing hlanding
      · rw [mem_singleton.mp hlanding]
        exact hfirst
  have hfine := h.flights flight hmem
  obtain ⟨id, path, program⟩ := flight
  unfold System.fly
  cases program with
  | ret result =>
    refine hland _ fun hpath result' hresult => ?_
    cases hresult
    exact hfine.1 hpath
  | raise e => exact hland _ fun _ result hresult => nomatch hresult
  | act next write =>
    by_cases hpath : path = p
    · subst hpath
      obtain ⟨hfits, hgrows, hnext⟩ := hfine.1 rfl s.world (Own.refl _) h.fits
      refine ⟨hfits, keysNodup_put h.keys _, fun call hcall => (h.calls call hcall).grows hgrows,
        fun other hother => ?_, h.landed⟩
      rcases (mem_put h.keys).mp hother with rfl | ⟨hother, hne⟩
      · exact ⟨fun _ => hnext, fun hne => absurd rfl hne⟩
      · exact (h.flights other hother).grows hgrows hne
    · obtain ⟨hfits, hown, hnext⟩ := hfine.2 hpath s.world (Grows.refl _) h.fits
      refine ⟨hfits, keysNodup_put h.keys _, fun call hcall => (h.calls call hcall).grows hown.1,
        fun other hother => ?_, h.landed⟩
      rcases (mem_put h.keys).mp hother with rfl | ⟨hother, _⟩
      · exact ⟨fun hsame => absurd hsame hpath, fun _ => hnext⟩
      · exact (h.flights other hother).own hown

theorem System.Inv.advance (hread : ∀ n, disk.readAt n = none) (h : s.Inv p)
    {program : Program T (Arrival T)} (hcall : s.calls[i]? = some ⟨path, .looking program⟩)
    (hfresh : s.Fresh p (.advance i)) :
    (s.advance disk maxEntries zero extend i path program).Inv p := by
  have hfine := h.calls _ (mem_of_getElem? hcall)
  unfold System.advance
  cases program with
  | act next write =>
    obtain ⟨hfits, hown, hnext⟩ := hfine s.world (Grows.refl _) h.fits
    exact (h.own hfits hown).setPhase hnext
  | raise e => exact h.setPhase fun _ result hresult => nomatch hresult
  | ret arrival =>
    cases arrival with
    | answer result =>
      refine h.setPhase fun hpath result' hresult => ?_
      cases hresult
      exact hfine hpath
    | join info =>
      refine h.join hread hfine fun hpath => ?_
      unfold System.Fresh at hfresh
      dsimp only at hfresh
      rw [hcall] at hfresh
      exact hfresh hpath

theorem System.Inv.step (hread : ∀ n, disk.readAt n = none) (h : s.Inv p) (step : Step)
    (happends : s.Appends p step) (hfresh : s.Fresh p step) :
    (s.step disk maxEntries zero extend step).Inv p := by
  unfold System.step
  cases step with
  | change path file => exact h.change happends
  | spawn canceled path =>
    refine { h with calls := fun call hmem => ?_ }
    rcases mem_append.mp hmem with hmem | hmem
    · exact h.calls call hmem
    · rw [mem_singleton.mp hmem]
      exact front_fine s.world
  | advance i =>
    dsimp only
    split
    · next path program hcall => exact h.advance hread hcall hfresh
    · exact h
  | fly path =>
    dsimp only
    split
    · next flight hflight => exact h.fly (mem_of_lookup hflight)
    · exact h
  | receive i =>
    dsimp only
    split
    · next path id hcall =>
      split
      · next landing hfound =>
        have hsame := find?_some hfound
        rw [Bool.and_eq_true, beq_iff_eq, beq_iff_eq] at hsame
        refine h.setPhase fun hpath => h.landed landing (mem_of_find?_eq_some hfound) ?_
        exact hsame.2.trans hpath
      · exact h
    · exact h
  | cancel i =>
    dsimp only
    split
    · exact h.setPhase fun _ result hresult => nomatch hresult
    · exact h

/-! ## Whole runs -/

theorem inv_start {files : String → Option File} {file : File} (hfile : files p = some file) :
    System.Inv p ({ world := { files := files } } : System T) where
  fits := ⟨file, hfile, fun _ h => nomatch h⟩
  keys := keysNodup_nil
  calls _ h := nomatch h
  flights _ h := nomatch h
  landed _ h := nomatch h

/-- Over a path that is only appended to, as long as no read of a tail probe fails and no
    flight is started with a stat below the recorded size, every successful call answers in
    one generation. -/
theorem appends_keep_epoch (hread : ∀ n, disk.readAt n = none) {files : String → Option File}
    {file : File} (hfile : files p = some file) (steps : List Step)
    (hsteps : Along (System.step disk maxEntries zero extend)
      (fun s step => s.Appends p step ∧ s.Fresh p step) { world := { files := files } } steps) :
    ∀ e ∈ (runSystem disk maxEntries zero extend files steps).epochs p,
      ∀ e' ∈ (runSystem disk maxEntries zero extend files steps).epochs p, e = e' := by
  have hinv : (runSystem disk maxEntries zero extend files steps).Inv p :=
    foldl_along (fun s step h hstep => h.step hread step hstep.1 hstep.2) (inv_start hfile) hsteps
  have hzero : ∀ e ∈ (runSystem disk maxEntries zero extend files steps).epochs p, e = 0 := by
    intro e he
    obtain ⟨call, hcall, hsome⟩ := mem_filterMap.mp he
    have hfine := hinv.calls call hcall
    unfold Call.Fine at hfine
    split at hsome
    · next result hphase =>
      rw [hphase] at hfine
      split at hsome
      · next hpath =>
        cases hsome
        exact (hfine hpath result rfl).1
      · cases hsome
    · cases hsome
  intro e he e' he'
  rw [hzero e he, hzero e' he']

/-- The second call stats the grown file and folds it, while the first holds on to its stat. -/
def staleSteps : List Step :=
  [.spawn false "p", .advance 0, .change "p" (some ⟨text "a\nb\n", 2⟩), .spawn false "p",
    .advance 1, .advance 1, .advance 1] ++ List.replicate 5 (.fly "p") ++
  [.receive 1, .advance 0, .advance 0] ++ List.replicate 6 (.fly "p") ++ [.receive 0]

/-- A call that stats the file before an append and starts a flight after the fold of the
    appended file moves the generation. -/
theorem stale_stat_moves_epoch :
    CorrectExtend [] linesExtend ∧
    Along (System.step quiet 1 [] linesExtend) (System.Appends "p")
      { world := { files := oneFile (text "a\n") } } staleSteps ∧
    (runSystem quiet 1 [] linesExtend (oneFile (text "a\n")) staleSteps).epochs "p" = [1, 0] :=
  ⟨linesExtend_correct, by decide, by decide⟩

/-- Both calls stat the file they fold. -/
def orderlySteps : List Step :=
  [.spawn false "p", .advance 0, .advance 0, .advance 0] ++ List.replicate 5 (.fly "p") ++
  [.change "p" (some ⟨text "a\nb\n", 2⟩), .spawn false "p", .advance 1, .advance 1, .advance 1] ++
  List.replicate 6 (.fly "p") ++ [.receive 0, .receive 1]

instance (p : String) (s : System T) (step : Step) : Decidable (s.Fresh p step) := by
  unfold System.Fresh
  have (st : Option EpochState) (info : FileInfo) :
      Decidable (∀ st', st = some st' → st'.size ≤ info.size) :=
    match st with
    | none => isTrue fun _ h => nomatch h
    | some st => decidable_of_iff (st.size ≤ info.size)
        ⟨fun h st' hst => Option.some.inj hst ▸ h, fun h => h st rfl⟩
  split
  · split <;> infer_instance
  · infer_instance

theorem appends_keep_epoch_orderly :
    (runSystem quiet 1 [] linesExtend (oneFile (text "a\n")) orderlySteps).epochs "p" = [0, 0] ∧
    ∀ e ∈ (runSystem quiet 1 [] linesExtend (oneFile (text "a\n")) orderlySteps).epochs "p",
      ∀ e' ∈ (runSystem quiet 1 [] linesExtend (oneFile (text "a\n")) orderlySteps).epochs "p",
        e = e' :=
  ⟨by decide, appends_keep_epoch (fun _ => rfl) rfl orderlySteps (by decide)⟩

end Evener.Foldcache
