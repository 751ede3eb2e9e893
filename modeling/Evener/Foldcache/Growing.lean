/-
  A path whose file only grows, among other calls.

  Everybody's steps move such a file by `Grows`; only the flight of the path touches what is
  recorded for it (`Own` leaves that). What is recorded fits the file at all times (`Fitting`).
-/
import Evener.Foldcache.Looks

namespace Evener.Foldcache

open Evener.Lib Evener.Lib.Prog Tx

/-- What is recorded fits the file, in the first generation. -/
structure Recorded (st : EpochState) (file : File) : Prop where
  present : st.absent = false
  epoch : st.epoch = 0
  offset : st.offset ≤ file.bytes.length
  tail : st.tail = tailBefore st.offset file.bytes
  size : st.size ≤ file.bytes.length
  mod : st.size = file.bytes.length → st.mod = file.modTime

/-- A later look at a file that is only appended to. -/
structure Appended (file file' : File) : Prop where
  bytes : file.bytes <+: file'.bytes
  mod : file'.bytes.length = file.bytes.length → file'.modTime = file.modTime

theorem Appended.refl (file : File) : Appended file file := ⟨List.prefix_rfl, fun _ => rfl⟩

theorem Appended.trans {f g h : File} (hfg : Appended f g) (hgh : Appended g h) : Appended f h := by
  refine ⟨hfg.bytes.trans hgh.bytes, fun hlength => ?_⟩
  have hle := hfg.bytes.length_le
  have hle' := hgh.bytes.length_le
  rw [hgh.mod (by omega), hfg.mod (by omega)]

variable {file : File} {offset : Nat} {tail : Bytes}

theorem Recorded.appended {st : EpochState} {file' : File} (h : Recorded st file)
    (happended : Appended file file') : Recorded st file' := by
  have hle := happended.bytes.length_le
  refine ⟨h.present, h.epoch, Nat.le_trans h.offset hle, ?_, Nat.le_trans h.size hle, fun hsize => ?_⟩
  · rw [h.tail, tailBefore_of_prefix h.offset happended.bytes]
  · have hsize' := h.size
    rw [happended.mod (by omega), h.mod (by omega)]

/-- A stat of the file, now or earlier. -/
structure Past (info : FileInfo) (file : File) : Prop where
  size : info.size ≤ file.bytes.length
  mod : info.size = file.bytes.length → info.modTime = file.modTime

theorem Past.now (file : File) : Past file.info file := ⟨Nat.le_refl _, fun _ => rfl⟩

theorem Past.appended {info : FileInfo} {file' : File} (h : Past info file)
    (happended : Appended file file') : Past info file' := by
  have hle := happended.bytes.length_le
  refine ⟨Nat.le_trans h.size hle, fun hsize => ?_⟩
  have hsize' := h.size
  rw [happended.mod (by omega), h.mod (by omega)]

variable {T : Type} {disk : Disk} {maxEntries : Int} {zero : T} {extend : Extend T}

section Path

variable (p : String)

def Fitting (w : World T) : Prop :=
  ∃ file, w.files p = some file ∧ ∀ st, w.cache.epochStates p = some st → Recorded st file

def Grows (w w' : World T) : Prop :=
  ∀ file, w.files p = some file → ∃ file', w'.files p = some file' ∧ Appended file file'

def Own (w w' : World T) : Prop :=
  Grows p w w' ∧ w'.cache.epochStates p = w.cache.epochStates p

/-- A step that leaves the path alone. -/
structure Leaves (w w' : World T) : Prop where
  files : w'.files = w.files
  states : w'.cache.epochStates p = w.cache.epochStates p

end Path

variable {p : String} {u v w : World T}

theorem Grows.refl (u : World T) : Grows p u u := fun file hfile => ⟨file, hfile, .refl file⟩

theorem Own.refl (u : World T) : Own p u u := ⟨.refl u, rfl⟩

theorem Grows.trans (h : Grows p u v) (h' : Grows p v w) : Grows p u w := by
  intro file hfile
  obtain ⟨file', hfile', happended⟩ := h file hfile
  obtain ⟨file'', hfile'', happended'⟩ := h' file' hfile'
  exact ⟨file'', hfile'', happended.trans happended'⟩

theorem Own.trans (h : Own p u v) (h' : Own p v w) : Own p u w :=
  ⟨h.1.trans h'.1, h'.2.trans h.2⟩

theorem Leaves.own (h : Leaves p u v) : Own p u v := by
  refine ⟨fun file hfile => ⟨file, ?_, .refl file⟩, h.states⟩
  rw [h.files]
  exact hfile

theorem Leaves.fitting (h : Leaves p u v) (hu : Fitting p u) : Fitting p v := by
  obtain ⟨file, hfile, hst⟩ := hu
  refine ⟨file, ?_, ?_⟩
  · rw [h.files]
    exact hfile
  · rw [h.states]
    exact hst

theorem Reads.leaves (h : Reads u v) : Leaves p u v := ⟨h.files, by rw [h.cache]⟩

/-! ## Calls for other paths -/

/-- Every step of the program leaves the path alone. -/
def Minds {α : Type} (p : String) (program : Program T α) : Prop :=
  ∀ s, Keeps (fun _ _ => True) (Leaves p) (fun _ => True) (fun _ _ => True) program s

section Minds

variable {α β : Type} {path : String}

theorem minds_pure (a : α) : Minds p (pure a : Program T α) := fun _ => trivial

theorem minds_raise (e : Failure) : Minds p (raise e : Program T α) := fun _ => trivial

theorem minds_bind {x : Program T α} {f : α → Program T β} (hx : Minds p x)
    (hf : ∀ a, Minds p (f a)) : Minds p (x >>= f) := by
  intro s
  rw [keeps_bind]
  exact keeps_mono (hx s) fun a t _ => hf a t

theorem minds_atomic {x : Body T α}
    (h : ∀ w, Tx.wp x w (fun _ w' => Leaves p w w') fun _ w' => Leaves p w w') :
    Minds p (atomic x) := by
  intro s
  refine keeps_atomic fun s' _ _ => ?_
  exact wp_mono (h s') (fun _ _ h => ⟨trivial, h, trivial⟩) fun _ _ h => ⟨trivial, h⟩

theorem minds_ite {c : Prop} [Decidable c] {x y : Program T α} (hx : Minds p x) (hy : Minds p y) :
    Minds p (if c then x else y) := by
  split
  · exact hx
  · exact hy

theorem Minds.keeps {x : Program T α} (h : Minds p x) (s : World T) :
    Keeps (Grows p) (Own p) (Fitting p) (fun _ _ => True) x s :=
  keeps_weaken (h s) (fun _ => trivial) (fun _ => trivial) fun hfits hleaves =>
    ⟨hleaves.fitting hfits, hleaves.own⟩

theorem probe_reads {want : Bytes} (w : World T) :
    Tx.wp (probeTailFromHandle disk path offset want) w (fun _ w' => Reads w w')
      (fun _ w' => Reads w w') := by
  unfold probeTailFromHandle
  rw [wp_bind]
  refine wp_mono call_spec (fun _ w₁ hreads => ?_) fun e w' h => h.1
  rw [wp_bind]
  refine fileAt_spec ?_
  cases w₁.files path with
  | none => exact hreads
  | some file =>
    rw [wp_bind]
    refine wp_mono call_spec (fun _ w₂ hreads₂ => ?_) fun e w' h => hreads.trans h.1
    have hreads := hreads.trans hreads₂
    rw [wp_ite, wp_ite, wp_bind]
    exact ⟨fun _ => hreads, fun _ => ⟨fun _ => hreads, fun _ => ⟨hreads.files, hreads.cache⟩⟩⟩

theorem minds_reads {x : Body T α}
    (h : ∀ w, Tx.wp x w (fun _ w' => Reads w w') fun _ w' => Reads w w') : Minds p (atomic x) :=
  minds_atomic fun w => wp_mono (h w) (fun _ _ h => h.leaves) fun _ _ h => h.leaves

theorem minds_statFile : Minds p (atomic (statFile disk path) : Program T _) :=
  minds_reads fun _ => wp_mono statFile_spec (fun _ _ h => h.1) fun _ _ h => h.1

theorem minds_attempt {x : Body T α}
    (h : ∀ w, Tx.wp x w (fun _ w' => Reads w w') fun _ w' => Reads w w') :
    Minds p (atomic (Tx.attempt x)) := by
  refine minds_reads fun w => ?_
  rw [wp_attempt]
  exact h w

theorem minds_tailProbe {want : Bytes} :
    Minds p (tailProbeMatches disk path offset want : Program T Bool) :=
  minds_ite (minds_pure _) (minds_bind (minds_reads probe_reads) fun _ => minds_pure _)

theorem minds_compare {info : FileInfo} {st : Option EpochState} {entry : Option (Entry T)} :
    Minds p (compare disk zero path info st entry) := by
  unfold compare
  cases st with
  | none => exact minds_pure _
  | some st =>
    refine minds_ite (minds_pure _) (minds_ite (minds_pure _) (minds_ite ?_ ?_))
    · refine minds_bind (minds_reads probe_reads) fun answer => ?_
      refine minds_ite (minds_pure _) (minds_ite ?_ ?_)
      · cases resident st entry with
        | none => exact minds_pure _
        | some e => exact minds_pure _
      · refine minds_bind minds_statFile fun fresh => ?_
        exact minds_ite (minds_pure _) (minds_bind minds_tailProbe fun _ => minds_pure _)
    · refine minds_ite (minds_bind minds_tailProbe fun _ => minds_pure _)
        (minds_bind minds_tailProbe fun isMatch => minds_ite (minds_pure _) ?_)
      cases resident st entry with
      | none => exact minds_pure _
      | some e => exact minds_pure _

theorem minds_runExtend {fromOffset : Nat} {prior : T} :
    Minds p (atomic (runExtend disk extend path fromOffset prior)) :=
  minds_reads fun _ => wp_mono runExtend_spec (fun _ _ h => h.1) fun _ _ h => h

theorem epochStates_publish {st : EpochState} {value : T} (w : World T) :
    Tx.wp (publish maxEntries path st value) w
      (fun _ w' => w'.files = w.files ∧
        w'.cache.epochStates = Function.update w.cache.epochStates path (some st))
      (fun _ _ => False) := by
  refine ⟨rfl, ?_⟩
  show (Cache.publishLocked _ _ _).epochStates = _
  unfold Cache.publishLocked
  split <;> rfl

/-- The flight of another path leaves this one alone. -/
theorem minds_refresh {info : FileInfo} (hpath : path ≠ p) :
    Minds p (refresh disk maxEntries zero extend path info) := by
  refine minds_bind (minds_reads fun w => Reads.refl w) fun found => ?_
  refine minds_bind minds_compare fun verdict => ?_
  cases verdict with
  | hit result => exact minds_pure _
  | fold epoch fromOffset prior =>
    refine minds_bind minds_runExtend fun folded => ?_
    refine minds_bind ?_ fun tail => minds_bind ?_ fun mod => minds_bind ?_ fun _ => minds_pure _
    · exact minds_ite (minds_pure _) (minds_reads fun _ =>
        wp_mono readTail_spec (fun _ _ h => h.1) fun _ _ h => h)
    · exact minds_ite (minds_bind minds_statFile fun _ => minds_pure _) (minds_pure _)
    · refine minds_atomic fun w => wp_mono (epochStates_publish w) (fun _ _ h => ⟨h.1, ?_⟩)
        fun _ _ h => h.elim
      rw [h.2, Function.update_of_ne hpath.symm]

theorem epochStates_drop (hpath : path ≠ p) (cache : Cache T) :
    (cache.drop path).2.epochStates p = cache.epochStates p := by
  unfold Cache.drop
  split
  · rfl
  · split
    · rfl
    · exact Function.update_of_ne hpath.symm ..

theorem minds_reverify {element : Nat} :
    Minds p (atomic (reverify path element) : Program T Bool) := by
  refine minds_atomic fun w => ?_
  unfold reverify
  rw [wp_bind, wp_read]
  cases w.cache.entry path with
  | none => exact (Reads.refl w).leaves
  | some e =>
    rw [wp_ite]
    exact ⟨fun _ => ⟨rfl, rfl⟩, fun _ => (Reads.refl w).leaves⟩

theorem minds_tryFastHit {info : FileInfo} :
    Minds p (tryFastHit disk path info : Program T (Option (Result T))) := by
  refine minds_bind (minds_reads fun w => wp_mono candidate_spec
    (fun _ _ h => h.1 ▸ Reads.refl w) fun _ _ h => h.elim) fun found => ?_
  rcases found with _ | ⟨e, st⟩
  · exact minds_pure _
  · refine minds_bind (minds_reads probe_reads) fun answer => ?_
    exact minds_ite (minds_pure _) (minds_bind minds_reverify fun _ => minds_pure _)

/-- A call for another path leaves this one alone. -/
theorem minds_front {canceled : Bool} (hpath : path ≠ p) :
    Minds p (front disk maxEntries zero extend canceled path) := by
  have hstat : Minds p (atomic (Tx.attempt (statFile disk path)) : Program T _) :=
    minds_attempt fun _ => wp_mono statFile_spec (fun _ _ h => h.1) fun _ _ h => h.1
  refine minds_ite (minds_raise _) (minds_ite ?_ ?_)
  · refine minds_bind (minds_bind hstat fun stat => ?_) fun _ => minds_pure _
    rcases stat with e | info
    · cases e <;> first | exact minds_pure _ | exact minds_raise _
    · exact minds_bind minds_runExtend fun _ => minds_pure _
  · refine minds_bind hstat fun stat => ?_
    rcases stat with e | info
    · cases e with
      | notExist =>
        refine minds_bind (minds_atomic fun w => ?_) fun _ => minds_pure _
        exact ⟨rfl, epochStates_drop hpath w.cache⟩
      | _ => exact minds_raise _
    · refine minds_bind minds_tryFastHit fun answer => ?_
      cases answer with
      | none => exact minds_pure _
      | some result => exact minds_pure _

end Minds

/-! ## Calls for the path -/

/-- An answer of the first generation. -/
def Result.First (result : Result T) : Prop := result.epoch = 0 ∧ result.absent = false

def Verdict.First : Verdict T → Prop
  | .hit result => result.First
  | .fold epoch _ _ => epoch = 0

def Seen (p : String) (info : FileInfo) (w : World T) : Prop :=
  ∃ file, w.files p = some file ∧ Past info file

def Held (p : String) (st : EpochState) (w : World T) : Prop :=
  ∃ file, w.files p = some file ∧ Recorded st file

theorem Seen.grows {info : FileInfo} (h : Seen p info u) (hgrows : Grows p u v) :
    Seen p info v := by
  obtain ⟨file, hfile, hpast⟩ := h
  obtain ⟨file', hfile', happended⟩ := hgrows file hfile
  exact ⟨file', hfile', hpast.appended happended⟩

theorem Held.grows {st : EpochState} (h : Held p st u) (hgrows : Grows p u v) : Held p st v := by
  obtain ⟨file, hfile, hrecorded⟩ := h
  obtain ⟨file', hfile', happended⟩ := hgrows file hfile
  exact ⟨file', hfile', hrecorded.appended happended⟩

theorem Reads.grows (h : Reads u v) : Grows p u v := h.leaves.own.1

theorem Recorded.tail_length {st : EpochState} (h : Recorded st file) :
    st.tail.length = min tailProbeBytes st.offset := by
  rw [h.tail]
  exact tailBefore_length h.offset

/-- What a call finds out before it joins a flight. -/
def Arrival.Fine (p : String) (w : World T) : Arrival T → Prop
  | .answer result => result.First
  | .join info => Seen p info w

section Path

variable {s : World T} {info : FileInfo} {st : EpochState} {entry : Option (Entry T)}

theorem keeps_reads {α : Type} {R G : World T → World T → Prop} {Q : α → World T → Prop}
    {x : Body T α} (hG : ∀ {u v : World T}, Leaves p u v → G u v)
    (h : ∀ w, R s w → Fitting p w →
      Tx.wp x w (fun a w' => Reads w w' ∧ Q a w') fun _ w' => Reads w w') :
    Keeps R G (Fitting p) Q (atomic x) s := by
  refine keeps_atomic fun w hr hi => ?_
  exact wp_mono (h w hr hi)
    (fun _ _ h => ⟨h.1.leaves.fitting hi, hG h.1.leaves, h.2⟩)
    fun _ _ h => ⟨h.leaves.fitting hi, hG h.leaves⟩

theorem stat_keeps {R : World T → World T → Prop} :
    Keeps R (Own p) (Fitting p)
      (fun stat w => match stat with
        | .ok info => Seen p info w
        | .error e => e ≠ .notExist)
      (atomic (Tx.attempt (statFile disk p))) s := by
  refine keeps_reads Leaves.own fun w _ hfits => ?_
  rw [wp_attempt]
  refine wp_mono statFile_spec (fun info w' h => ?_) fun e w' h => ⟨h.1, fun he => ?_⟩
  · obtain ⟨hreads, file, hfile, rfl⟩ := h
    refine ⟨hreads, file, ?_, Past.now file⟩
    rw [hreads.files]
    exact hfile
  · obtain ⟨file, hfile, _⟩ := hfits
    rw [h.2 he] at hfile
    cases hfile

theorem tryFastHit_keeps :
    Keeps (Grows p) (Own p) (Fitting p) (fun answer _ => ∀ result, answer = some result → result.First)
      (tryFastHit disk p info) s := by
  unfold tryFastHit
  rw [keeps_bind]
  have hcandidate : Keeps (Grows p) (Own p) (Fitting p)
      (fun found _ => ∀ e st, found = some (e, st) → st.epoch = 0)
      (atomic (candidate p info) : Program T (Option (Entry T × EpochState))) s := by
    refine keeps_reads Leaves.own fun w _ hfits => ?_
    refine wp_mono candidate_spec (fun found w' h => ?_) fun _ _ h => h.elim
    obtain ⟨rfl, hfound⟩ := h
    refine ⟨Reads.refl _, fun e st hsome => ?_⟩
    obtain ⟨file, _, hrecorded⟩ := hfits
    exact (hrecorded st (hfound e st hsome).2.1).epoch
  refine keeps_mono hcandidate fun found t hfound => ?_
  rcases found with _ | ⟨e, st⟩
  · exact fun result h => nomatch h
  · dsimp only
    rw [keeps_bind]
    refine keeps_mono ((minds_reads probe_reads).keeps t) fun answer t' _ => ?_
    split
    · exact fun result h => nomatch h
    · rw [keeps_bind]
      refine keeps_mono (minds_reverify.keeps t') fun live _ _ result hresult => ?_
      cases live with
      | false => cases hresult
      | true =>
        cases hresult
        exact ⟨hfound e st rfl, rfl⟩

/-- A call for the path answers in the first generation, or joins with a stat of the file. -/
theorem front_keeps {canceled : Bool} :
    Keeps (Grows p) (Own p) (Fitting p) (fun arrival w => arrival.Fine p w)
      (front disk maxEntries zero extend canceled p) s := by
  unfold front
  split
  · exact keeps_raise _
  split
  · unfold readUncached
    rw [keeps_bind, keeps_bind]
    refine keeps_mono stat_keeps fun stat t hstat => ?_
    cases stat with
    | error e =>
      cases e with
      | notExist => exact absurd rfl hstat
      | _ => exact keeps_raise _
    | ok info =>
      rw [keeps_bind]
      exact keeps_mono (minds_runExtend.keeps t) fun _ _ _ => ⟨rfl, rfl⟩
  · rw [keeps_bind]
    refine keeps_mono stat_keeps fun stat t hstat => ?_
    cases stat with
    | error e =>
      cases e with
      | notExist => exact absurd rfl hstat
      | _ => exact keeps_raise _
    | ok info =>
      rw [keeps_bind]
      refine keeps_mono (keeps_stable tryFastHit_keeps (fun h hr => Seen.grows h hr)
        (fun h hg => Seen.grows h hg.1) hstat) fun answer t' h => ?_
      cases answer with
      | none => exact h.2
      | some result => exact h.1 result rfl

/-! ## The flight of the path -/

variable (hread : ∀ n, disk.readAt n = none)

include hread in
theorem tailProbe_keeps (hst : Held p st s) :
    Keeps (Own p) (Grows p) (Fitting p) (fun isMatch _ => isMatch = true)
      (tailProbeMatches disk p st.offset st.tail : Program T Bool) s := by
  unfold tailProbeMatches
  split
  · rfl
  · rw [keeps_bind]
    refine keeps_reads (fun h => h.own.1) fun w hr _ => ?_
    obtain ⟨file, hfile, hrecorded⟩ := hst.grows hr.1
    refine wp_mono (probe_spec hrecorded.tail_length) (fun answer w' h => ⟨h.1, ?_⟩) fun _ _ h => h
    exact h.2.complete hread file hfile hrecorded.tail.symm

include hread in
theorem sameSizeAmbiguous_keeps (hst : Held p st s) (hseen : Seen p info s)
    (hsize : info.size = st.size) :
    Keeps (Own p) (Grows p) (Fitting p) (fun verdict _ => verdict.First)
      (sameSizeAmbiguous disk zero p info st entry) s := by
  have hepoch : st.epoch = 0 := by
    obtain ⟨_, _, hrecorded⟩ := hst
    exact hrecorded.epoch
  unfold sameSizeAmbiguous
  rw [keeps_bind]
  have hprobe : Keeps (Own p) (Grows p) (Fitting p)
      (fun answer w => answer.1 = true ∧ Held p st w ∧
        (¬ (st.mod = info.modTime ∧ answer.2 = some ⟨st.size, st.mod⟩) →
          ∃ file, w.files p = some file ∧ st.size < file.bytes.length))
      (atomic (probeTailFromHandle disk p st.offset st.tail)) s := by
    refine keeps_reads (fun h => h.own.1) fun w hr _ => ?_
    obtain ⟨file, hfile, hrecorded⟩ := hst.grows hr.1
    obtain ⟨file', hfile', hpast⟩ := hseen.grows hr.1
    rw [hfile] at hfile'
    cases hfile'
    refine wp_mono (probe_spec hrecorded.tail_length) (fun answer w' h => ?_) fun _ _ h => h
    obtain ⟨hreads, hprobed⟩ := h
    refine ⟨hreads, hprobed.complete hread file hfile hrecorded.tail.symm, ?_, fun hdiffers => ?_⟩
    · exact Held.grows ⟨file, hfile, hrecorded⟩ hreads.grows
    · refine ⟨file, ?_, Nat.lt_of_le_of_ne hrecorded.size fun hend => hdiffers ?_⟩
      · rw [hreads.files]
        exact hfile
      · -- at the end of the file the recorded mtime, the stat's and the handle's are the file's
        have hmod := hrecorded.mod hend
        refine ⟨hmod.trans (hpast.mod (hsize.trans hend)).symm, ?_⟩
        rw [hprobed.info, hfile, hmod, hend]
        rfl
  refine keeps_mono hprobe fun answer t h => ?_
  obtain ⟨hmatch, hst, hgrown⟩ := h
  dsimp only
  rw [if_neg (by simp [hmatch])]
  split
  · cases hresident : resident st entry with
    | none => exact hepoch
    | some e => exact ⟨hepoch, rfl⟩
  · next hdiffers =>
    obtain ⟨file, hfile, hlonger⟩ := hgrown hdiffers
    rw [keeps_bind]
    have hstat : Keeps (Own p) (Grows p) (Fitting p) (fun fresh w => st.size < fresh.size ∧ Held p st w)
        (atomic (statFile disk p) : Program T FileInfo) t := by
      refine keeps_reads (fun h => h.own.1) fun w hr _ => ?_
      obtain ⟨file', hfile', happended⟩ := hr.1 file hfile
      refine wp_mono statFile_spec (fun fresh w' h => ?_) fun _ _ h => h.1
      obtain ⟨hreads, file'', hfile'', rfl⟩ := h
      rw [hfile'] at hfile''
      cases hfile''
      exact ⟨hreads, Nat.lt_of_lt_of_le hlonger happended.bytes.length_le,
        (hst.grows hr.1).grows hreads.grows⟩
    refine keeps_mono hstat fun fresh t' h => ?_
    rw [if_neg (Nat.not_le.mpr h.1), keeps_bind]
    refine keeps_mono (tailProbe_keeps hread h.2) fun regrown _ hregrown => ?_
    rw [hregrown]
    exact hepoch

include hread in
theorem growth_keeps (hst : Held p st s) :
    Keeps (Own p) (Grows p) (Fitting p) (fun verdict _ => verdict.First)
      (growth disk zero p info st entry) s := by
  have hepoch : st.epoch = 0 := by
    obtain ⟨_, _, hrecorded⟩ := hst
    exact hrecorded.epoch
  unfold growth
  split
  · rw [keeps_bind]
    refine keeps_mono (tailProbe_keeps hread hst) fun isMatch _ hmatch => ?_
    rw [hmatch]
    exact hepoch
  · rw [keeps_bind]
    refine keeps_mono (tailProbe_keeps hread hst) fun isMatch _ hmatch => ?_
    rw [if_neg (by simp [hmatch])]
    cases resident st entry with
    | none => exact hepoch
    | some e => exact hepoch

include hread in
/-- Over a growing file a stat that is not older than the recorded state keeps the
    generation. -/
theorem compare_keeps {recorded : Option EpochState}
    (hst : ∀ st, recorded = some st → Held p st s ∧ st.size ≤ info.size) (hseen : Seen p info s) :
    Keeps (Own p) (Grows p) (Fitting p) (fun verdict _ => verdict.First)
      (compare disk zero p info recorded entry) s := by
  unfold compare
  cases recorded with
  | none => rfl
  | some st =>
    obtain ⟨hheld, hfresh⟩ := hst st rfl
    have hpresent : st.absent = false := by
      obtain ⟨_, _, hrecorded⟩ := hheld
      exact hrecorded.present
    dsimp only
    rw [if_neg (by simp [hpresent]), if_neg (Nat.not_lt.mpr hfresh)]
    split
    · next hsize => exact sameSizeAmbiguous_keeps hread hheld hseen hsize
    · exact growth_keeps hread hheld

/-- The bytes that the tail was read from are still in the file. -/
def Captured (p : String) (offset : Nat) (tail : Bytes) (w : World T) : Prop :=
  ∃ file, w.files p = some file ∧ offset ≤ file.bytes.length ∧ tail = tailBefore offset file.bytes

theorem Captured.grows (h : Captured p offset tail u) (hgrows : Grows p u v) :
    Captured p offset tail v := by
  obtain ⟨file, hfile, hoffset, rfl⟩ := h
  obtain ⟨file', hfile', happended⟩ := hgrows file hfile
  exact ⟨file', hfile', Nat.le_trans hoffset happended.bytes.length_le,
    ( tailBefore_of_prefix hoffset happended.bytes).symm⟩

theorem captureTailProbe_keeps (hseen : Seen p info s) :
    Keeps (Own p) (Grows p) (Fitting p) (fun tail w => Captured p offset tail w)
      (captureTailProbe disk p offset) s := by
  unfold captureTailProbe
  split
  · next hzero =>
    obtain ⟨file, hfile, _⟩ := hseen
    subst hzero
    exact ⟨file, hfile, Nat.zero_le _, rfl⟩
  · refine keeps_reads (fun h => h.own.1) fun w hr _ => ?_
    obtain ⟨file, hfile, _⟩ := hseen.grows hr.1
    refine wp_mono readTail_spec (fun tail w' h => ⟨h.1, file, ?_, h.2 file hfile⟩) fun _ _ h => h
    rw [h.1.files]
    exact hfile

theorem recordedMod_keeps (hseen : Seen p info s) (hcaptured : Captured p offset tail s) :
    Keeps (Own p) (Grows p) (Fitting p) (fun mod w => Seen p ⟨max info.size offset, mod⟩ w)
      (recordedMod disk p info offset) s := by
  unfold recordedMod
  split
  · next hpast =>
    rw [keeps_bind]
    refine keeps_reads (fun h => h.own.1) fun w hr _ => ?_
    obtain ⟨file, hfile, hoffset, _⟩ := hcaptured.grows hr.1
    refine wp_mono statFile_spec (fun fresh w' h => ?_) fun _ _ h => h.1
    obtain ⟨hreads, file', hfile', rfl⟩ := h
    rw [hfile] at hfile'
    cases hfile'
    refine ⟨hreads, file, ?_, ?_⟩
    · rw [hreads.files]
      exact hfile
    · rw [Nat.max_eq_right (Nat.le_of_lt hpast)]
      exact ⟨hoffset, fun _ => rfl⟩
  · next hcovered =>
    show Seen p ⟨max info.size offset, info.modTime⟩ s
    rw [Nat.max_eq_left (Nat.not_lt.mp hcovered)]
    exact hseen

/-- What the flight records fits the file. -/
theorem publish_keeps {mod : Int} {value : T} (hcaptured : Captured p offset tail s)
    (hseen : Seen p ⟨max info.size offset, mod⟩ s) :
    Keeps (Own p) (Grows p) (Fitting p) (fun _ _ => True)
      (atomic (publish maxEntries p
        { size := max info.size offset, mod := mod, offset := offset, tail := tail, epoch := 0 }
        value)) s := by
  refine keeps_atomic fun w hr _ => ?_
  obtain ⟨file, hfile, hoffset, htail⟩ := hcaptured.grows hr.1
  obtain ⟨file', hfile', hpast⟩ := hseen.grows hr.1
  rw [hfile] at hfile'
  cases hfile'
  refine wp_mono (epochStates_publish w) (fun _ w' h => ?_) fun _ _ h => h.elim
  obtain ⟨hfiles, hstates⟩ := h
  rw [← hfiles] at hfile
  refine ⟨⟨file, hfile, fun st hst => ?_⟩, fun file' hfile' => ?_, trivial⟩
  · rw [hstates, Function.update_self] at hst
    cases hst
    exact ⟨rfl, rfl, hoffset, htail, hpast.size, hpast.mod⟩
  · rw [← hfiles] at hfile'
    exact ⟨file', hfile', .refl file'⟩

theorem foldFrom_keeps {fromOffset : Nat} {prior : T} (hseen : Seen p info s) :
    Keeps (Own p) (Grows p) (Fitting p) (fun result _ => result.First)
      (foldFrom disk maxEntries extend p info 0 fromOffset prior) s := by
  unfold foldFrom
  rw [keeps_bind]
  refine keeps_reads (fun h => h.own.1) fun w hr _ => ?_
  refine wp_mono runExtend_spec (fun folded w' h => ⟨h.1, ?_⟩) fun _ _ h => h
  have hseen := (hseen.grows hr.1).grows h.1.grows
  rw [keeps_bind]
  refine keeps_mono (keeps_stable (captureTailProbe_keeps hseen)
    (fun h hr => Seen.grows h hr.1) (fun h hg => Seen.grows h hg) hseen) fun tail t h => ?_
  obtain ⟨hcaptured, hseen⟩ := h
  rw [keeps_bind]
  refine keeps_mono (keeps_stable (recordedMod_keeps hseen hcaptured)
    (fun h hr => Captured.grows h hr.1) (fun h hg => Captured.grows h hg) hcaptured)
    fun mod t' h => ?_
  rw [keeps_bind]
  exact keeps_mono (publish_keeps h.2 h.1) fun _ _ _ => ⟨rfl, rfl⟩

include hread in
/-- The flight of the path answers in the first generation, where the stat it was started
    with is not below the recorded size. -/
theorem refresh_keeps (hseen : Seen p info s)
    (hfresh : ∀ st, s.cache.epochStates p = some st → st.size ≤ info.size) :
    Keeps (Own p) (Grows p) (Fitting p) (fun result _ => result.First)
      (refresh disk maxEntries zero extend p info) s := by
  unfold refresh
  rw [keeps_bind]
  refine keeps_reads (fun h => h.own.1) fun w hr hfits => ?_
  have hseen := hseen.grows hr.1
  refine ⟨Reads.refl w, ?_⟩
  show Keeps (Own p) (Grows p) (Fitting p) (fun (result : Result T) _ => result.First)
    (compare disk zero p info (w.cache.epochStates p) (w.cache.entry p) >>= _) w
  rw [keeps_bind]
  have hcompare : Keeps (Own p) (Grows p) (Fitting p) (fun verdict _ => verdict.First)
      (compare disk zero p info (w.cache.epochStates p) (w.cache.entry p)) w := by
    refine compare_keeps hread (fun st hst => ⟨?_, hfresh st ?_⟩) hseen
    · obtain ⟨file, hfile, hrecorded⟩ := hfits
      exact ⟨file, hfile, hrecorded st hst⟩
    · rw [← hr.2]
      exact hst
  refine keeps_mono (keeps_stable hcompare (fun h hr => Seen.grows h hr.1)
    (fun h hg => Seen.grows h hg) hseen) fun verdict t h => ?_
  cases verdict with
  | hit result => exact h.1
  | fold epoch fromOffset prior =>
    obtain ⟨hepoch, hseen⟩ := h
    have hepoch : epoch = 0 := hepoch
    subst hepoch
    exact foldFrom_keeps hseen

end Path

end Evener.Foldcache
