/-
  Sequences of `Get` calls with the files changing in between.

  As long as each call finds a file that extends the recorded bytes, or gives a rewrite away by
  its length or its recorded tail, every answer is the fold of the file from zero.
-/
import Evener.Lib.CheckedFold
import Evener.Foldcache.Sequential

namespace Evener.Foldcache

open Evener.Lib Evener.Lib.Prog List Function

/-- A call, the file it was made over and what it came to. -/
structure Reading (T : Type) where
  path : String
  file : Option File
  outcome : Except Failure (Result T)

/-- `last` keeps the bytes that the last answer for a path was folded from. -/
structure Session (T : Type) where
  world : World T
  last : String → Bytes := fun _ => []
  log : List (Reading T) := []

inductive Op where
  | change (path : String) (file : Option File)
  | get (canceled : Bool) (path : String)

variable {T : Type}

def Session.logged (s : Session T) (path : String) : Except Failure (Result T) × World T → Session T
  | (outcome, world) =>
    { world := world
      last := match outcome, s.world.files path with
        | .ok _, some file => Function.update s.last path file.bytes
        | _, _ => s.last
      log := s.log ++ [⟨path, s.world.files path, outcome⟩] }

section Steps

variable (disk : Disk) (maxEntries : Int) (zero : T) (extend : Extend T)

def Session.step (s : Session T) : Op → Session T
  | .change path file =>
    { s with world := { s.world with files := Function.update s.world.files path file } }
  | .get canceled path => s.logged path (run (get disk maxEntries zero extend canceled path) s.world)

def runSession (files : String → Option File) (ops : List Op) : Session T :=
  ops.foldl (Session.step disk maxEntries zero extend) { world := { files := files } }

end Steps

/-- A call finds no rewrite that hides behind the recorded length and tail. -/
def Session.Honest (s : Session T) : Op → Prop
  | .change _ _ => True
  | .get _ path =>
    Foldcache.Honest (s.last path) (s.world.cache.epochStates path) (s.world.files path)

/-- An answer is the fold of the file from byte zero. -/
def Reading.Sound (zero : T) (extend : Extend T) (reading : Reading T) : Prop :=
  ∀ result, reading.outcome = .ok result →
    match reading.file with
    | none => result.absent = true ∧ result.value = zero ∧ result.offset = 0
    | some file => result.absent = false ∧
        extend reading.path (some file.bytes) 0 zero = .ok (result.value, result.offset)

/-- The generation of an answer over a file, and the bytes it consumed. -/
def Reading.consumed (reading : Reading T) : Option (Nat × Bytes) :=
  match reading.outcome, reading.file with
  | .ok result, some file =>
    if result.absent then none else some (result.epoch, file.bytes.take result.offset)
  | _, _ => none

/-- Of two answers for one path in one generation, the later consumed what the earlier did. -/
def Extending (log : List (Reading T)) : Prop :=
  log.Pairwise fun earlier later => earlier.path = later.path →
    ∀ epoch before after, earlier.consumed = some (epoch, before) →
      later.consumed = some (epoch, after) → before <+: after

/-! ## The invariant -/

/-- What the recorded state of a path says about an answer of the past. -/
def Outdates (last : Bytes) (st : Option EpochState) (epoch : Nat) (bytes : Bytes) : Prop :=
  ∃ st', st = some st' ∧ (st'.absent = true → epoch < st'.epoch) ∧
    (st'.absent = false → epoch ≤ st'.epoch ∧ (epoch = st'.epoch → bytes <+: completeLines last))

structure Session.Inv (zero : T) (extend : Extend T) (s : Session T) : Prop where
  kept : Kept zero extend s.last s.world.cache
  past : ∀ reading ∈ s.log, ∀ epoch bytes, reading.consumed = some (epoch, bytes) →
    Outdates (s.last reading.path) (s.world.cache.epochStates reading.path) epoch bytes
  sound : ∀ reading ∈ s.log, reading.Sound zero extend
  extending : Extending s.log

variable {disk : Disk} {maxEntries : Int} {zero : T} {extend : Extend T} {s : Session T}
  {path : String}

theorem Outdates.generation {last bytes before : Bytes} {st : Option EpochState} {epoch next : Nat}
    (h : Outdates last st epoch before) (hnext : Generation last st bytes next) :
    epoch ≤ next ∧ (epoch = next → before <+: completeLines bytes) := by
  obtain ⟨st', rfl, habsent, hpresent⟩ := h
  unfold Generation at hnext
  dsimp only at hnext
  split at hnext
  · next hgone =>
    have := habsent hgone
    exact ⟨by omega, fun _ => by omega⟩
  · next hthere =>
    obtain ⟨hle, hbytes⟩ := hpresent (by simpa using hthere)
    rcases hnext with ⟨rfl, hpre⟩ | rfl
    · exact ⟨hle, fun heq => (hbytes heq).trans (completeLines_mono hpre)⟩
    · exact ⟨by omega, fun _ => by omega⟩

theorem kept_folded {last : String → Bytes} {w w' : World T} {file : File} {result : Result T}
    (hkept : Kept zero extend last w.cache)
    (h : Folded zero extend path (last path) file w w' result) :
    Kept zero extend (Function.update last path file.bytes) w'.cache := by
  obtain ⟨st, hst, hdescribes, hoffset, _⟩ := h.state
  constructor
  · intro q st' hst' hpresent
    by_cases hq : q = path
    · subst hq
      rw [hst] at hst'
      cases hst'
      rw [update_self]
      refine ⟨result.value, hdescribes, fun e he hpath => ?_⟩
      rcases h.entries e he with ⟨_, hne⟩ | ⟨_, hvalid, heoffset, hvalue⟩
      · exact absurd hpath hne
      · exact ⟨hvalid, heoffset.trans hoffset.symm, hvalue⟩
    · rw [h.others q hq] at hst'
      rw [update_of_ne hq]
      obtain ⟨value, hold, hentries⟩ := hkept.states q st' hst' hpresent
      refine ⟨value, hold, fun e he hpath => ?_⟩
      rcases h.entries e he with ⟨hmem, _⟩ | ⟨hsame, _⟩
      · exact hentries e hmem hpath
      · exact absurd (hpath.symm.trans hsame) hq
  · intro e he
    rcases h.entries e he with ⟨hmem, hne⟩ | ⟨hsame, _⟩
    · rw [h.others e.path hne]
      exact hkept.entries e hmem
    · rw [hsame]
      exact ⟨st, hst, hdescribes.present⟩

/-- What forgetting a missing path does to the recorded states. -/
theorem drop_states (cache : Cache T) (path : String) :
    (∀ q, q ≠ path → (cache.drop path).2.epochStates q = cache.epochStates q) ∧
      (∀ st, (cache.drop path).2.epochStates path = some st → st.absent = true) ∧
      (∀ e ∈ (cache.drop path).2.order, e ∈ cache.order ∧ e.path ≠ path) ∧
      ∀ last epoch bytes, Outdates last (cache.epochStates path) epoch bytes →
        Outdates last ((cache.drop path).2.epochStates path) epoch bytes := by
  have hfilter : ∀ e ∈ cache.order.filter fun e => e.path != path, e ∈ cache.order ∧ e.path ≠ path :=
    fun e he => by simpa using mem_filter.mp he
  unfold Cache.drop
  cases hst : cache.epochStates path with
  | none =>
    refine ⟨fun q _ => rfl, fun st h => ?_, hfilter, fun _ _ _ h => ?_⟩
    · rw [hst] at h
      cases h
    · obtain ⟨_, h, _⟩ := h
      cases h
  | some st =>
    dsimp only
    by_cases habsent : st.absent = true
    · rw [if_pos habsent]
      refine ⟨fun q _ => rfl, fun st' h => ?_, hfilter, fun _ _ _ h => ?_⟩
      · rw [hst] at h
        cases h
        exact habsent
      · dsimp only
        rwa [hst]
    · rw [if_neg habsent]
      refine ⟨fun q hq => update_of_ne hq .., fun st' h => ?_, hfilter,
        fun last epoch bytes h => ?_⟩
      · dsimp only at h
        rw [update_self] at h
        cases h
        rfl
      · obtain ⟨st', hsome, _, hpresent⟩ := h
        cases hsome
        obtain ⟨hle, _⟩ := hpresent (by simpa using habsent)
        refine ⟨_, update_self .., fun _ => Nat.lt_succ_of_le hle, fun h => nomatch h⟩

theorem kept_drop {last : String → Bytes} {cache : Cache T} (hkept : Kept zero extend last cache)
    (path : String) : Kept zero extend last (cache.drop path).2 := by
  obtain ⟨hothers, hgone, horder, _⟩ := drop_states cache path
  constructor
  · intro q st hst hpresent
    by_cases hq : q = path
    · subst hq
      rw [hgone st hst] at hpresent
      cases hpresent
    · rw [hothers q hq] at hst
      obtain ⟨value, hdescribes, hentries⟩ := hkept.states q st hst hpresent
      exact ⟨value, hdescribes, fun e he => hentries e (horder e he).1⟩
  · intro e he
    rw [hothers e.path (horder e he).2]
    exact hkept.entries e (horder e he).1

/-! ## One call -/

theorem Extending.snoc {log : List (Reading T)} {reading : Reading T} (h : Extending log)
    (hnew : ∀ earlier ∈ log, earlier.path = reading.path → ∀ epoch before after,
      earlier.consumed = some (epoch, before) → reading.consumed = some (epoch, after) →
      before <+: after) : Extending (log ++ [reading]) := by
  unfold Extending at h ⊢
  rw [pairwise_append]
  refine ⟨h, pairwise_singleton _ _, fun earlier hmem later hlater => ?_⟩
  rw [mem_singleton.mp hlater]
  exact hnew earlier hmem

/-- A call that answers nothing about content. -/
theorem Session.Inv.silent (h : s.Inv zero extend) {world : World T} {reading : Reading T}
    (hkept : Kept zero extend s.last world.cache)
    (hpast : ∀ q epoch bytes, Outdates (s.last q) (s.world.cache.epochStates q) epoch bytes →
      Outdates (s.last q) (world.cache.epochStates q) epoch bytes)
    (hnone : reading.consumed = none) (hsound : reading.Sound zero extend) :
    Session.Inv zero extend { world := world, last := s.last, log := s.log ++ [reading] } := by
  refine ⟨hkept, fun r hr epoch bytes hconsumed => ?_, fun r hr => ?_, ?_⟩
  · rcases mem_append.mp hr with hr | hr
    · exact hpast r.path epoch bytes (h.past r hr epoch bytes hconsumed)
    · rw [mem_singleton.mp hr, hnone] at hconsumed
      cases hconsumed
  · rcases mem_append.mp hr with hr | hr
    · exact h.sound r hr
    · rw [mem_singleton.mp hr]
      exact hsound
  · refine h.extending.snoc fun _ _ _ _ _ _ _ hconsumed => ?_
    rw [hnone] at hconsumed
    cases hconsumed

theorem Session.Inv.folded (hcorrect : CorrectExtend zero extend) (h : s.Inv zero extend)
    {world : World T} {file : File} {result : Result T}
    (hfolded : Folded zero extend path (s.last path) file s.world world result) :
    Session.Inv zero extend
      { world := world, last := Function.update s.last path file.bytes,
        log := s.log ++ [⟨path, some file, .ok result⟩] } := by
  obtain ⟨st, hst, hdescribes, _, hepoch⟩ := hfolded.state
  have hpresent := hdescribes.present
  have hconsumed : Reading.consumed ⟨path, some file, .ok result⟩ =
      some (result.epoch, completeLines file.bytes) := by
    unfold Reading.consumed
    dsimp only
    rw [if_neg (by simp [hfolded.present]), hcorrect.consumed hfolded.fold]
  have hpast : ∀ r ∈ s.log, r.path = path → ∀ epoch bytes, r.consumed = some (epoch, bytes) →
      epoch ≤ result.epoch ∧ (epoch = result.epoch → bytes <+: completeLines file.bytes) := by
    intro r hr hpath epoch bytes hold
    have houtdates := h.past r hr epoch bytes hold
    rw [hpath] at houtdates
    exact houtdates.generation hfolded.generation
  refine ⟨kept_folded h.kept hfolded, fun r hr epoch bytes hr' => ?_, fun r hr => ?_, ?_⟩
  · have hhere : ∀ bytes, epoch ≤ result.epoch →
        (epoch = result.epoch → bytes <+: completeLines file.bytes) →
        Outdates (Function.update s.last path file.bytes path) (world.cache.epochStates path)
          epoch bytes := by
      intro bytes hle hbytes
      rw [update_self]
      refine ⟨st, hst, fun habsent => ?_, fun _ => ?_⟩
      · rw [hpresent] at habsent
        cases habsent
      · rw [hepoch]
        exact ⟨hle, hbytes⟩
    rcases mem_append.mp hr with hr | hr
    · by_cases hq : r.path = path
      · obtain ⟨hle, hbytes⟩ := hpast r hr hq epoch bytes hr'
        rw [hq]
        exact hhere bytes hle hbytes
      · show Outdates (Function.update s.last path file.bytes r.path)
          (world.cache.epochStates r.path) epoch bytes
        rw [update_of_ne hq, hfolded.others r.path hq]
        exact h.past r hr epoch bytes hr'
    · rw [mem_singleton.mp hr] at hr' ⊢
      rw [hconsumed] at hr'
      cases hr'
      exact hhere _ (Nat.le_refl _) fun _ => prefix_rfl
  · rcases mem_append.mp hr with hr | hr
    · exact h.sound r hr
    · rw [mem_singleton.mp hr]
      intro answer hanswer
      cases hanswer
      exact ⟨hfolded.present, hfolded.fold⟩
  · refine h.extending.snoc fun earlier hmem hpath epoch before after hbefore hafter => ?_
    rw [hconsumed] at hafter
    cases hafter
    exact (hpast earlier hmem hpath _ before hbefore).2 rfl

theorem Session.Inv.step (hlimit : 0 < maxEntries) (hcorrect : CorrectExtend zero extend)
    (h : s.Inv zero extend) (op : Op) (hhonest : s.Honest op) :
    (s.step disk maxEntries zero extend op).Inv zero extend := by
  cases op with
  | change path file => exact ⟨h.kept, h.past, h.sound, h.extending⟩
  | get canceled path =>
    have hspec : Tx.wp (run (get disk maxEntries zero extend canceled path)) s.world
        (fun result w' => Answers zero extend path (s.last path) s.world w' result)
        (fun _ w' => Reads s.world w') :=
      get_spec hlimit hcorrect h.kept hhonest canceled
    show Session.Inv zero extend
      (s.logged path (run (get disk maxEntries zero extend canceled path) s.world))
    unfold Tx.wp at hspec
    rcases hrun : run (get disk maxEntries zero extend canceled path) s.world with ⟨e | result, w⟩
    · rw [hrun] at hspec
      have hreads : Reads s.world w := hspec
      show Session.Inv zero extend ⟨w, s.last, s.log ++ [⟨path, s.world.files path, .error e⟩]⟩
      exact h.silent (hreads.cache ▸ h.kept) (fun q _ _ hq => hreads.cache ▸ hq) rfl
        fun result hresult => nomatch hresult
    · rw [hrun] at hspec
      have hanswers : Answers zero extend path (s.last path) s.world w result := hspec
      unfold Answers at hanswers
      unfold Session.logged
      cases hfile : s.world.files path with
      | none =>
        rw [hfile] at hanswers
        obtain ⟨_, hcache, rfl⟩ := hanswers
        obtain ⟨hothers, _, _, hpast⟩ := drop_states s.world.cache path
        refine h.silent ?_ (fun q epoch bytes hq => ?_) (by rfl) fun result hresult => ?_
        · rw [hcache]
          exact kept_drop h.kept path
        · rw [hcache]
          by_cases hsame : q = path
          · subst hsame
            exact hpast _ epoch bytes hq
          · rwa [hothers q hsame]
        · cases hresult
          exact ⟨rfl, rfl, rfl⟩
      | some file =>
        rw [hfile] at hanswers
        exact h.folded hcorrect hanswers

/-- Without a cache every call folds from zero, and there is no generation to move. -/
theorem get_uncached_spec (hlimit : maxEntries ≤ 0) (w : World T) (canceled : Bool) :
    Tx.wp (run (get disk maxEntries zero extend canceled path)) w
      (fun result w' => Reads w w' ∧ result.epoch = 0 ∧
        Reading.Sound zero extend ⟨path, w.files path, .ok result⟩)
      (fun _ w' => Reads w w') := by
  unfold get front
  rw [wp_run_bind, wp_run_ite]
  refine ⟨fun _ => Reads.refl w, fun _ => ?_⟩
  rw [if_pos hlimit, wp_run_bind]
  unfold readUncached
  rw [wp_run_bind, wp_run_atomic, Tx.wp_attempt]
  refine Tx.wp_mono statFile_spec (fun info w₁ h => ?_) fun e w₁ h => ?_
  · obtain ⟨hreads, file, hfile, rfl⟩ := h
    rw [wp_run_bind, wp_run_atomic]
    refine Tx.wp_mono runExtend_spec (fun folded w₂ h => ?_) fun _ _ h => hreads.trans h
    obtain ⟨hreads₂, hfold⟩ := h
    rw [hreads.files, hfile] at hfold
    refine ⟨hreads.trans hreads₂, rfl, fun result hresult => ?_⟩
    cases hresult
    rw [hfile]
    exact ⟨rfl, hfold⟩
  · cases e with
    | notExist =>
      refine ⟨h.1, rfl, fun result hresult => ?_⟩
      cases hresult
      rw [h.2 rfl]
      exact ⟨rfl, rfl, rfl⟩
    | _ => exact h.1

structure Session.Uncached (zero : T) (extend : Extend T) (s : Session T) : Prop where
  sound : ∀ reading ∈ s.log, reading.Sound zero extend
  epoch : ∀ reading ∈ s.log, ∀ result, reading.outcome = .ok result → result.epoch = 0

theorem Session.Uncached.step (hlimit : maxEntries ≤ 0) (h : s.Uncached zero extend) (op : Op) :
    (s.step disk maxEntries zero extend op).Uncached zero extend := by
  cases op with
  | change path file => exact ⟨h.sound, h.epoch⟩
  | get canceled path =>
    have hspec : Tx.wp (run (get disk maxEntries zero extend canceled path)) s.world
        (fun result w' => Reads s.world w' ∧ result.epoch = 0 ∧
          Reading.Sound zero extend ⟨path, s.world.files path, .ok result⟩)
        (fun _ w' => Reads s.world w') :=
      get_uncached_spec hlimit s.world canceled
    have hnew : ∀ outcome w, run (get disk maxEntries zero extend canceled path) s.world =
        (outcome, w) → Reading.Sound zero extend ⟨path, s.world.files path, outcome⟩ ∧
        ∀ result, outcome = .ok result → result.epoch = 0 := by
      intro outcome w hrun
      unfold Tx.wp at hspec
      rw [hrun] at hspec
      cases outcome with
      | error e => exact ⟨fun result h => (nomatch h), fun result h => nomatch h⟩
      | ok result =>
        refine ⟨hspec.2.2, fun result' h => ?_⟩
        cases h
        exact hspec.2.1
    obtain ⟨hsound, hepoch⟩ := hnew _ _ rfl
    constructor
    · intro reading hmem
      rcases mem_append.mp hmem with hmem | hmem
      · exact h.sound reading hmem
      · rw [mem_singleton.mp hmem]
        exact hsound
    · intro reading hmem
      rcases mem_append.mp hmem with hmem | hmem
      · exact h.epoch reading hmem
      · rw [mem_singleton.mp hmem]
        exact hepoch

/-! ## Whole sessions -/

theorem inv_initial (zero : T) (extend : Extend T) (files : String → Option File) :
    Session.Inv zero extend { world := { files := files } } where
  kept := ⟨fun _ _ h => (nomatch h), fun _ h => nomatch h⟩
  past _ h := nomatch h
  sound _ h := nomatch h
  extending := List.Pairwise.nil

/-- Whatever calls and changes follow each other: every answer is the fold of the file it was
    given over, and with a cache the answers of one generation read one growing file. -/
theorem get_sound (hcorrect : CorrectExtend zero extend) (files : String → Option File)
    (ops : List Op)
    (hhonest : Along (Session.step disk maxEntries zero extend) Session.Honest
      { world := { files := files } } ops) :
    (∀ reading ∈ (runSession disk maxEntries zero extend files ops).log,
      reading.Sound zero extend) ∧
    (0 < maxEntries → Extending (runSession disk maxEntries zero extend files ops).log) ∧
    (maxEntries ≤ 0 → ∀ reading ∈ (runSession disk maxEntries zero extend files ops).log,
      ∀ result, reading.outcome = .ok result → result.epoch = 0) := by
  by_cases hlimit : 0 < maxEntries
  · have hinv : (runSession disk maxEntries zero extend files ops).Inv zero extend :=
      foldl_along (fun s op h hop => h.step hlimit hcorrect op hop)
        (inv_initial zero extend files) hhonest
    exact ⟨hinv.sound, fun _ => hinv.extending, fun hnone => by omega⟩
  · have huncached : (runSession disk maxEntries zero extend files ops).Uncached zero extend :=
      foldl_along (fun s op h _ => h.step (by omega) op)
        ⟨fun _ h => (nomatch h), fun _ h => nomatch h⟩ hhonest
    exact ⟨huncached.sound, fun hsome => absurd hsome hlimit, fun _ => huncached.epoch⟩

/-! ## Some sessions -/

instance (s : Session T) (op : Op) : Decidable (s.Honest op) := by
  unfold Session.Honest Foldcache.Honest
  split
  · infer_instance
  · split <;> infer_instance

/-- A journal that grows, is written anew and goes away. -/
def journalOps : List Op :=
  [.get false "p", .change "p" (some ⟨text "a\nb\n", 2⟩), .get false "p",
    .change "p" (some ⟨text "c\n", 3⟩), .get false "p", .change "p" none, .get false "p"]

theorem get_sound_journal :
    (∀ reading ∈ (runSession quiet 1 [] linesExtend (oneFile (text "a\n")) journalOps).log,
      reading.Sound [] linesExtend) ∧
    Extending (runSession quiet 1 [] linesExtend (oneFile (text "a\n")) journalOps).log :=
  have hsound := get_sound linesExtend_correct (oneFile (text "a\n")) journalOps (by decide)
  ⟨hsound.1, hsound.2.1 Int.one_pos⟩

/-- One change by itself: it appends to the file it finds, or leaves fewer bytes than the last
    answer was folded from, or other bytes in front of its offset. -/
def Session.SingleChange (s : Session T) : Op → Prop
  | .change path (some file) =>
    (s.world.files path).any (fun old => decide (old.bytes <+: file.bytes)) = true ∨
      file.bytes.length < (s.last path).length ∨
      tailBefore (completeLines (s.last path)).length file.bytes ≠
        tailBefore (completeLines (s.last path)).length (s.last path)
  | _ => True

instance (s : Session T) (op : Op) : Decidable (s.SingleChange op) := by
  unfold Session.SingleChange
  split <;> infer_instance

def longLine : Bytes := List.replicate 63 97 ++ [newline]

def rewriteOps : List Op := [.get false "p", .change "p" (some ⟨text "b\n", 2⟩), .get false "p"]

/-- Truncated, and then appended to up to the recorded tail and beyond. -/
def regrowOps : List Op :=
  [.get false "p", .change "p" (some ⟨[], 2⟩),
    .change "p" (some ⟨text "y\n" ++ longLine ++ text "z\n", 3⟩), .get false "p"]

/-- Without a cache a rewrite does not move the generation; and two changes, a truncation and
    an append, may together leave a file whose answer is not its fold. -/
theorem changes_unseen :
    CorrectExtend [] linesExtend ∧
    (Along (Session.step quiet 0 [] linesExtend) Session.SingleChange
        { world := { files := oneFile (text "a\n") } } rewriteOps ∧
      ¬ Extending (runSession quiet 0 [] linesExtend (oneFile (text "a\n")) rewriteOps).log) ∧
    (Along (Session.step quiet 1 [] linesExtend) Session.SingleChange
        { world := { files := oneFile (text "x\n" ++ longLine) } } regrowOps ∧
      ¬ ∀ reading ∈ (runSession quiet 1 [] linesExtend (oneFile (text "x\n" ++ longLine))
        regrowOps).log, reading.Sound [] linesExtend) := by
  refine ⟨linesExtend_correct, ⟨by decide, fun h => ?_⟩, by decide, fun h => ?_⟩
  · have hpair := pairwise_iff_getElem.mp h 0 1 (by decide) (by decide) (by decide)
    have hprefix := hpair rfl 0 (text "a\n") (text "b\n") (by decide) (by decide)
    exact absurd hprefix (by decide)
  · have hlast : (runSession quiet 1 [] linesExtend (oneFile (text "x\n" ++ longLine))
        regrowOps).log[1]? =
        some ⟨"p", some ⟨text "y\n" ++ longLine ++ text "z\n", 3⟩,
          .ok { value := text "x\n" ++ longLine ++ text "z\n", offset := 68 }⟩ := by
      rfl
    have hfold := (h _ (mem_of_getElem? hlast) _ rfl).2
    have hvalue := (Prod.mk.inj (Except.ok.inj hfold)).1
    exact absurd hvalue (by decide)

end Evener.Foldcache
