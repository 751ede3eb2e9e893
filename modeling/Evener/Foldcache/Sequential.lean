/-
  What one `Get` comes to, with nothing else going on: the recorded state of a path describes the
  bytes it was folded from (`Describes`), and the generation stays only where the bytes extend the
  recorded ones (`Generation`).
-/
import Evener.Foldcache.Looks

namespace Evener.Foldcache

open Evener.Lib Evener.Lib.Prog List Tx

/-- Extending the fold of a prefix by the rest is folding the whole, and a fold consumes the
    file up to its last newline. -/
structure CorrectExtend {T : Type} (zero : T) (extend : Extend T) : Prop where
  resume : ∀ path before bytes value offset, extend path (some before) 0 zero = .ok (value, offset) →
    before.take offset <+: bytes →
    extend path (some bytes) offset value = extend path (some bytes) 0 zero
  consumes : ∀ path bytes value offset, extend path (some bytes) 0 zero = .ok (value, offset) →
    offset = (completeLines bytes).length

variable {T : Type} {disk : Disk} {maxEntries : Int} {zero : T} {extend : Extend T} {w : World T}
  {path : String}

variable {offset : Nat} {bytes : Bytes} {e : Entry T} {cache : Cache T}

theorem CorrectExtend.consumed (h : CorrectExtend zero extend) {value : T}
    (hfold : extend path (some bytes) 0 zero = .ok (value, offset)) :
    bytes.take offset = completeLines bytes := by
  rw [h.consumes path bytes value offset hfold, take_completeLines]

theorem CorrectExtend.offset_le (h : CorrectExtend zero extend) {value : T}
    (hfold : extend path (some bytes) 0 zero = .ok (value, offset)) : offset ≤ bytes.length := by
  rw [h.consumes path bytes value offset hfold]
  exact ( prefix_completeLines bytes).length_le

/-- The recorded state of bytes whose fold is `value`. -/
structure Describes (zero : T) (extend : Extend T) (path : String) (bytes : Bytes)
    (st : EpochState) (value : T) : Prop where
  present : st.absent = false
  size : st.size = bytes.length
  fold : extend path (some bytes) 0 zero = .ok (value, st.offset)
  tail : st.tail = tailBefore st.offset bytes

/-- The cached entries are folds that the recorded states describe, `last path` being the
    bytes that the state of a path was recorded for. -/
structure Kept (zero : T) (extend : Extend T) (last : String → Bytes) (cache : Cache T) : Prop where
  states : ∀ path st, cache.epochStates path = some st → st.absent = false →
    ∃ value, Describes zero extend path (last path) st value ∧
      ∀ e ∈ cache.order, e.path = path → e.valid = true ∧ e.offset = st.offset ∧ e.value = value
  entries : ∀ e ∈ cache.order, ∃ st, cache.epochStates e.path = some st ∧ st.absent = false

/-- The bytes of a file against what is recorded for its path: they extend the recorded bytes,
    or are fewer, or differ in the recorded tail. -/
def Honest (last : Bytes) (st : Option EpochState) (file : Option File) : Prop :=
  match st, file with
  | some st, some file =>
    st.absent = true ∨ last <+: file.bytes ∨ file.bytes.length < st.size ∨
      tailBefore st.offset file.bytes ≠ st.tail
  | _, _ => True

/-- The generation of a fold of `bytes`: that of the recorded state over an extension of the
    recorded bytes, the next one over anything else. -/
def Generation (last : Bytes) (st : Option EpochState) (bytes : Bytes) (epoch : Nat) : Prop :=
  match st with
  | none => epoch = 0
  | some st =>
    if st.absent then epoch = st.epoch
    else (epoch = st.epoch ∧ last <+: bytes) ∨ epoch = st.epoch + 1

theorem Generation.kept {last : Bytes} {st : EpochState} (h : st.absent = false)
    (hpre : last <+: bytes) : Generation last (some st) bytes st.epoch := by
  unfold Generation
  dsimp only
  rw [if_neg (by simp [h])]
  exact Or.inl ⟨rfl, hpre⟩

theorem Generation.moved {last : Bytes} {st : EpochState} (h : st.absent = false) :
    Generation last (some st) bytes (st.epoch + 1) := by
  unfold Generation
  dsimp only
  rw [if_neg (by simp [h])]
  exact Or.inr rfl

/-! ## The comparisons -/

/-- A verdict that is right for a file of these bytes. -/
def Verdict.Settles (zero : T) (extend : Extend T) (path : String) (last : Bytes)
    (st : Option EpochState) (entry : Option (Entry T)) (bytes : Bytes) : Verdict T → Prop
  | .hit result => ∃ st' e, st = some st' ∧ entry = some e ∧ st'.absent = false ∧
      e.offset = st'.offset ∧ last = bytes ∧
      result = { value := e.value, offset := e.offset, epoch := st'.epoch }
  | .fold epoch fromOffset prior => Generation last st bytes epoch ∧
      extend path (some bytes) fromOffset prior = extend path (some bytes) 0 zero

theorem prefix_of_match {last : Bytes} {st : EpochState} {value : T}
    (hdescribes : Describes zero extend path last st value) (hsize : st.size ≤ bytes.length)
    {file : File} (hbytes : file.bytes = bytes) (hhonest : Honest last (some st) (some file))
    (htail : tailBefore st.offset bytes = st.tail) : last <+: bytes := by
  subst hbytes
  rcases hhonest with habsent | hpre | hshort | hdiffers
  · rw [hdescribes.present] at habsent
    cases habsent
  · exact hpre
  · omega
  · exact absurd htail hdiffers

theorem resident_eq_some {st : EpochState} {entry : Option (Entry T)}
    (h : resident st entry = some e) : entry = some e ∧ e.offset = st.offset := by
  unfold resident at h
  obtain ⟨hentry, hvalid⟩ := Option.filter_eq_some_iff.mp h
  rw [Bool.and_eq_true, beq_iff_eq] at hvalid
  exact ⟨hentry, hvalid.2⟩

theorem Describes.tail_length (hcorrect : CorrectExtend zero extend) {last : Bytes}
    {st : EpochState} {value : T} (h : Describes zero extend path last st value) :
    st.tail.length = min tailProbeBytes st.offset := by
  rw [h.tail]
  exact tailBefore_length (hcorrect.offset_le h.fold)

theorem tailProbeMatches_spec {want : Bytes} {file : File}
    (hwant : want.length = min tailProbeBytes offset) (hfile : w.files path = some file) :
    Tx.wp (run (tailProbeMatches disk path offset want)) w
      (fun isMatch w' => Reads w w' ∧ (isMatch = true → tailBefore offset file.bytes = want))
      (fun _ w' => Reads w w') := by
  unfold tailProbeMatches
  rw [wp_run_ite]
  refine ⟨fun hempty => ?_, fun _ => ?_⟩
  · rw [List.isEmpty_iff] at hempty
    refine ⟨Reads.refl w, fun _ => ?_⟩
    rw [hempty, length_nil] at hwant
    unfold tailProbeBytes at hwant
    have hoffset : offset = 0 := by omega
    rw [hempty, hoffset]
    rfl
  · rw [wp_run_bind, wp_run_atomic]
    refine wp_mono (probe_spec hwant) (fun answer w' h => ⟨h.1, fun hmatch => ?_⟩) fun _ _ h => h
    obtain ⟨f, hf, htail⟩ := h.2.sound hmatch
    rw [hfile] at hf
    cases hf
    exact htail

section Comparisons

variable {last : Bytes} {st : EpochState} {value : T} {entry : Option (Entry T)} {file : File}

theorem settles_fold_kept (hpresent : st.absent = false) (hpre : last <+: file.bytes) :
    Verdict.Settles zero extend path last (some st) entry file.bytes (.fold st.epoch 0 zero) :=
  ⟨.kept hpresent hpre, rfl⟩

theorem settles_fold_moved (hpresent : st.absent = false) :
    Verdict.Settles zero extend path last (some st) entry file.bytes
      (.fold (st.epoch + 1) 0 zero) :=
  ⟨.moved hpresent, rfl⟩

theorem sameSizeAmbiguous_spec (hcorrect : CorrectExtend zero extend)
    (hdescribes : Describes zero extend path last st value) (hfile : w.files path = some file)
    (hhonest : Honest last (some st) (some file)) (hsize : file.info.size = st.size) :
    Tx.wp (run (sameSizeAmbiguous disk zero path file.info st entry)) w
      (fun verdict w' => Reads w w' ∧
        verdict.Settles zero extend path last (some st) entry file.bytes)
      (fun _ w' => Reads w w') := by
  have hlength : st.size = file.bytes.length := hsize.symm
  have hpresent := hdescribes.present
  unfold sameSizeAmbiguous
  rw [wp_run_bind, wp_run_atomic]
  refine wp_mono (probe_spec (hdescribes.tail_length hcorrect)) (fun answer w₁ h => ?_)
    fun _ _ h => h
  obtain ⟨hreads, hprobed⟩ := h
  rw [hfile] at hprobed
  rw [wp_run_ite]
  refine ⟨fun _ => ⟨hreads, settles_fold_moved hpresent⟩, fun hmatch => ?_⟩
  obtain ⟨f, hf, htail⟩ := hprobed.sound (by simpa using hmatch)
  cases hf
  have hpre : last <+: file.bytes :=
    prefix_of_match hdescribes (Nat.le_of_eq hlength) rfl hhonest htail
  rw [wp_run_ite]
  refine ⟨fun hagrees => ?_, fun _ => ?_⟩
  · cases hresident : resident st entry with
    | none => exact ⟨hreads, settles_fold_kept hpresent hpre⟩
    | some e =>
      obtain ⟨hentry, hoffset⟩ := resident_eq_some hresident
      have hsame : last = file.bytes :=
        hpre.eq_of_length (hdescribes.size.symm.trans hlength)
      exact ⟨hreads, st, e, rfl, hentry, hpresent, hoffset, hsame, rfl⟩
  · rw [wp_run_bind, wp_run_atomic]
    refine wp_mono statFile_spec (fun fresh w₂ h => ?_) fun _ _ h => hreads.trans h.1
    obtain ⟨hreads₂, f, hf, rfl⟩ := h
    rw [hreads.files, hfile] at hf
    cases hf
    rw [wp_run_ite]
    exact ⟨fun _ => ⟨hreads.trans hreads₂, settles_fold_moved hpresent⟩,
      fun hgrown => absurd (Nat.le_of_eq hsize) hgrown⟩

theorem growth_spec (hcorrect : CorrectExtend zero extend)
    (hdescribes : Describes zero extend path last st value) (hfile : w.files path = some file)
    (hhonest : Honest last (some st) (some file)) (hsize : st.size < file.info.size)
    (hentry : ∀ e, entry = some e → e.value = value) :
    Tx.wp (run (growth disk zero path file.info st entry)) w
      (fun verdict w' => Reads w w' ∧
        verdict.Settles zero extend path last (some st) entry file.bytes)
      (fun _ w' => Reads w w') := by
  have hlength : st.size ≤ file.bytes.length := Nat.le_of_lt hsize
  have hpresent := hdescribes.present
  have hprobe : Tx.wp (run (tailProbeMatches disk path st.offset st.tail)) w
      (fun isMatch w' => Reads w w' ∧ (isMatch = true → last <+: file.bytes))
      (fun _ w' => Reads w w') := by
    refine wp_mono (tailProbeMatches_spec (hdescribes.tail_length hcorrect) hfile)
      (fun isMatch w' h => ⟨h.1, fun hmatch => ?_⟩) fun _ _ h => h
    exact prefix_of_match hdescribes hlength rfl hhonest (h.2 hmatch)
  unfold growth
  rw [wp_run_ite]
  refine ⟨fun _ => ?_, fun _ => ?_⟩
  · rw [wp_run_bind]
    refine wp_mono hprobe (fun isMatch w' h => ⟨h.1, ?_⟩) fun _ _ h => h
    cases isMatch with
    | false => exact settles_fold_moved hpresent
    | true => exact settles_fold_kept hpresent (h.2 rfl)
  · rw [wp_run_bind]
    refine wp_mono hprobe (fun isMatch w' h => ?_) fun _ _ h => h
    rw [wp_run_ite]
    refine ⟨fun _ => ⟨h.1, settles_fold_moved hpresent⟩, fun hmatch => ?_⟩
    have hpre := h.2 (by simpa using hmatch)
    cases hresident : resident st entry with
    | none => exact ⟨h.1, settles_fold_kept hpresent hpre⟩
    | some e =>
      obtain ⟨hsome, hoffset⟩ := resident_eq_some hresident
      refine ⟨h.1, .kept hpresent hpre, ?_⟩
      rw [hentry e hsome, hoffset]
      exact hcorrect.resume path last file.bytes value st.offset hdescribes.fold
        (( take_prefix _ _).trans hpre)

end Comparisons

theorem Cache.entry_mem (h : cache.entry path = some e) : e ∈ cache.order ∧ e.path = path :=
  ⟨mem_of_find?_eq_some h, by simpa using find?_some h⟩

theorem compare_spec (hcorrect : CorrectExtend zero extend) {last : String → Bytes}
    (hkept : Kept zero extend last cache) {file : File} (hfile : w.files path = some file)
    (hhonest : Honest (last path) (cache.epochStates path) (some file)) :
    Tx.wp (run (compare disk zero path file.info (cache.epochStates path) (cache.entry path))) w
      (fun verdict w' => Reads w w' ∧ verdict.Settles zero extend path (last path)
        (cache.epochStates path) (cache.entry path) file.bytes)
      (fun _ w' => Reads w w') := by
  unfold compare
  cases hst : cache.epochStates path with
  | none => exact ⟨Reads.refl w, rfl, rfl⟩
  | some st =>
    rw [hst] at hhonest
    rw [wp_run_ite]
    refine ⟨fun habsent => ⟨Reads.refl w, ?_, rfl⟩, fun hnot => ?_⟩
    · unfold Generation
      dsimp only
      rw [if_pos habsent]
    · have hpresent : st.absent = false := by simpa using hnot
      obtain ⟨value, hdescribes, hentries⟩ := hkept.states path st hst hpresent
      rw [wp_run_ite]
      refine ⟨fun _ => ⟨Reads.refl w, settles_fold_moved hpresent⟩, fun hshort => ?_⟩
      rw [wp_run_ite]
      refine ⟨fun hsize => ?_, fun hsize => ?_⟩
      · exact sameSizeAmbiguous_spec hcorrect hdescribes hfile hhonest hsize
      · refine growth_spec hcorrect hdescribes hfile hhonest (by omega) fun e he => ?_
        obtain ⟨hmem, hpath⟩ := Cache.entry_mem he
        exact (hentries e hmem hpath).2.2

/-! ## The answer -/

/-- An answer over a file: the fold of its bytes, now recorded for the path. -/
structure Folded (zero : T) (extend : Extend T) (path : String) (last : Bytes) (file : File)
    (w w' : World T) (result : Result T) : Prop where
  files : w'.files = w.files
  fold : extend path (some file.bytes) 0 zero = .ok (result.value, result.offset)
  present : result.absent = false
  state : ∃ st, w'.cache.epochStates path = some st ∧
    Describes zero extend path file.bytes st result.value ∧ st.offset = result.offset ∧
    st.epoch = result.epoch
  others : ∀ q, q ≠ path → w'.cache.epochStates q = w.cache.epochStates q
  entries : ∀ e ∈ w'.cache.order, (e ∈ w.cache.order ∧ e.path ≠ path) ∨
    (e.path = path ∧ e.valid = true ∧ e.offset = result.offset ∧ e.value = result.value)
  generation : Generation last (w.cache.epochStates path) file.bytes result.epoch

theorem Folded.after_reads {last : Bytes} {file : File} {u v : World T} {result : Result T}
    (h : Folded zero extend path last file u v result) (hreads : Reads w u) :
    Folded zero extend path last file w v result :=
  { h with
    files := h.files.trans hreads.files
    others := fun q hq => by rw [h.others q hq, hreads.cache]
    entries := by rw [← hreads.cache]; exact h.entries
    generation := by rw [← hreads.cache]; exact h.generation }

theorem epochStates_publishLocked (entry : Entry T) (cache : Cache T) :
    (cache.publishLocked maxEntries entry).epochStates = cache.epochStates := by
  unfold Cache.publishLocked
  split <;> rfl

theorem mem_moveToFront {entry : Entry T} (h : e ∈ (cache.moveToFront entry).order) :
    e = entry ∨ (e ∈ cache.order ∧ e.path ≠ entry.path) := by
  unfold Cache.moveToFront at h
  rcases mem_cons.mp h with rfl | hmem
  · exact Or.inl rfl
  · exact Or.inr (by simpa using mem_filter.mp hmem)

theorem mem_publishLocked {entry : Entry T} (h : e ∈ (cache.publishLocked maxEntries entry).order) :
    (∃ element, e = { entry with element := element }) ∨
      (e ∈ cache.order ∧ e.path ≠ entry.path) := by
  unfold Cache.publishLocked at h
  split at h
  · next old _ =>
    rcases mem_moveToFront h with rfl | hmem
    · exact Or.inl ⟨_, rfl⟩
    · exact Or.inr hmem
  · next hnone =>
    rcases mem_cons.mp h with rfl | hmem
    · exact Or.inl ⟨_, rfl⟩
    · refine Or.inr ⟨mem_of_mem_take hmem, fun hpath => ?_⟩
      have hnot := find?_eq_none.mp hnone e (mem_of_mem_take hmem)
      rw [hpath] at hnot
      simp at hnot

theorem captureTailProbe_spec {file : File} (hfile : w.files path = some file) :
    Tx.wp (run (captureTailProbe disk path offset)) w
      (fun tail w' => Reads w w' ∧ tail = tailBefore offset file.bytes)
      (fun _ w' => Reads w w') := by
  unfold captureTailProbe
  rw [wp_run_ite]
  refine ⟨fun hzero => ⟨Reads.refl w, ?_⟩, fun _ => ?_⟩
  · rw [hzero]
    rfl
  · rw [wp_run_atomic]
    exact wp_mono readTail_spec (fun tail w' h => ⟨h.1, (h.2 file hfile).2⟩) fun _ _ h => h

theorem foldFrom_spec (hcorrect : CorrectExtend zero extend) {last : Bytes} {file : File}
    (hfile : w.files path = some file) {epoch fromOffset : Nat} {prior : T}
    (hgeneration : Generation last (w.cache.epochStates path) file.bytes epoch)
    (hextend : extend path (some file.bytes) fromOffset prior =
      extend path (some file.bytes) 0 zero) :
    Tx.wp (run (foldFrom disk maxEntries extend path file.info epoch fromOffset prior)) w
      (fun result w' => Folded zero extend path last file w w' result)
      (fun _ w' => Reads w w') := by
  unfold foldFrom
  rw [wp_run_bind, wp_run_atomic]
  refine wp_mono runExtend_spec (fun folded w₁ h => ?_) fun _ _ h => h
  obtain ⟨hreads, hfold⟩ := h
  obtain ⟨value, offset⟩ := folded
  rw [hfile, Option.map_some, hextend] at hfold
  have hoffset := hcorrect.offset_le hfold
  rw [wp_run_bind]
  refine wp_mono (captureTailProbe_spec (hreads.files ▸ hfile)) (fun tail w₂ h => ?_)
    fun _ _ h => hreads.trans h
  obtain ⟨hreads₂, rfl⟩ := h
  have hreads := hreads.trans hreads₂
  have hconsumed : ¬ file.info.size < offset := Nat.not_lt.mpr hoffset
  unfold recordedMod
  rw [wp_run_bind, if_neg hconsumed]
  refine ⟨hreads.files, hfold, rfl, ?_, ?_, ?_, hgeneration⟩
  · refine ⟨⟨max file.info.size offset, file.info.modTime, offset, tailBefore offset file.bytes,
      epoch, false⟩, ?_, ⟨rfl, Nat.max_eq_left hoffset, hfold, rfl⟩, rfl, rfl⟩
    · show (Cache.publishLocked _ _ _).epochStates path = _
      rw [epochStates_publishLocked]
      exact Function.update_self ..
  · intro q hq
    show (Cache.publishLocked _ _ _).epochStates q = _
    rw [epochStates_publishLocked]
    show Function.update w₂.cache.epochStates path _ q = _
    rw [Function.update_of_ne hq, hreads.cache]
  · intro e he
    rcases mem_publishLocked he with ⟨element, rfl⟩ | ⟨hmem, hpath⟩
    · exact Or.inr ⟨rfl, rfl, rfl, rfl⟩
    · rw [← hreads.cache]
      exact Or.inl ⟨hmem, hpath⟩

/-- A confirmed entry answers as the fold of the recorded bytes. -/
theorem folded_hit {last : String → Bytes} (hkept : Kept zero extend last w.cache) {file : File}
    {st : EpochState} {w' : World T} (hfiles : w'.files = w.files)
    (hstates : w'.cache.epochStates = w.cache.epochStates)
    (horder : ∀ e ∈ w'.cache.order, e ∈ w.cache.order) (hst : w.cache.epochStates path = some st)
    (hpresent : st.absent = false) (he : w.cache.entry path = some e)
    (hsame : last path = file.bytes) :
    Folded zero extend path (last path) file w w'
      { value := e.value, offset := e.offset, epoch := st.epoch } := by
  obtain ⟨value, hdescribes, hentries⟩ := hkept.states path st hst hpresent
  obtain ⟨hmem, hpath⟩ := Cache.entry_mem he
  obtain ⟨_, hoffset, hvalue⟩ := hentries e hmem hpath
  rw [hvalue, hoffset]
  rw [hsame] at hdescribes
  refine ⟨hfiles, hdescribes.fold, rfl, ⟨st, ?_, hdescribes, rfl, rfl⟩, ?_, ?_, ?_⟩
  · rw [hstates]
    exact hst
  · intro q _
    rw [hstates]
  · intro e' he'
    have hold := horder e' he'
    by_cases hq : e'.path = path
    · exact Or.inr ⟨hq, hentries e' hold hq⟩
    · exact Or.inl ⟨hold, hq⟩
  · rw [hst, hsame]
    exact .kept hpresent prefix_rfl

theorem refresh_spec (hcorrect : CorrectExtend zero extend) {last : String → Bytes}
    (hkept : Kept zero extend last w.cache) {file : File} (hfile : w.files path = some file)
    (hhonest : Honest (last path) (w.cache.epochStates path) (some file)) :
    Tx.wp (run (refresh disk maxEntries zero extend path file.info)) w
      (fun result w' => Folded zero extend path (last path) file w w' result)
      (fun _ w' => Reads w w') := by
  unfold refresh
  rw [wp_run_bind, wp_run_atomic]
  show Tx.wp (run (compare disk zero path file.info (w.cache.epochStates path)
    (w.cache.entry path) >>= _)) w _ _
  rw [wp_run_bind]
  refine wp_mono (compare_spec hcorrect hkept hfile hhonest) (fun verdict w₁ h => ?_)
    fun _ _ h => h
  obtain ⟨hreads, hsettles⟩ := h
  cases verdict with
  | hit result =>
    obtain ⟨st, e, hst, he, hpresent, _, hsame, rfl⟩ := hsettles
    exact folded_hit hkept hreads.files (by rw [hreads.cache]) (by rw [hreads.cache]; exact fun _ h => h)
      hst hpresent he hsame
  | fold epoch fromOffset prior =>
    obtain ⟨hgeneration, hextend⟩ := hsettles
    rw [← hreads.cache] at hgeneration
    exact wp_mono (foldFrom_spec hcorrect (hreads.files ▸ hfile) hgeneration hextend)
      (fun _ _ h => h.after_reads hreads) fun _ _ h => hreads.trans h

theorem reverify_spec {element : Nat} :
    Tx.wp (reverify path element) w
      (fun live w' => w'.files = w.files ∧
        w'.cache.epochStates = w.cache.epochStates ∧ (∀ e ∈ w'.cache.order, e ∈ w.cache.order) ∧
        (live = false → w' = w))
      (fun _ _ => False) := by
  unfold reverify
  rw [wp_bind, wp_read]
  cases hentry : w.cache.entry path with
  | none => exact ⟨rfl, rfl, fun _ h => h, fun _ => rfl⟩
  | some e =>
    rw [wp_ite]
    refine ⟨fun _ => ⟨rfl, rfl, fun e' he' => ?_, fun h => nomatch h⟩,
      fun _ => ⟨rfl, rfl, fun _ h => h, fun _ => rfl⟩⟩
    rcases mem_moveToFront he' with rfl | h
    · exact (Cache.entry_mem hentry).1
    · exact h.1

theorem tryFastHit_spec (hcorrect : CorrectExtend zero extend) {last : String → Bytes}
    (hkept : Kept zero extend last w.cache) {file : File} (hfile : w.files path = some file)
    (hhonest : Honest (last path) (w.cache.epochStates path) (some file)) :
    Tx.wp (run (tryFastHit disk path file.info)) w
      (fun answer w' => (answer = none → Reads w w') ∧
        ∀ result, answer = some result → Folded zero extend path (last path) file w w' result)
      (fun _ w' => Reads w w') := by
  unfold tryFastHit
  rw [wp_run_bind, wp_run_atomic]
  refine wp_mono candidate_spec (fun found w₁ h => ?_) fun _ _ h => h.elim
  obtain ⟨rfl, hfound⟩ := h
  rcases found with _ | ⟨e, st⟩
  · exact ⟨fun _ => Reads.refl _, fun _ h => nomatch h⟩
  obtain ⟨he, hst, hsize⟩ := hfound e st rfl
  obtain ⟨hmem, hpath⟩ := Cache.entry_mem he
  obtain ⟨st', hst', hpresent⟩ := hkept.entries e hmem
  rw [hpath, hst] at hst'
  cases hst'
  obtain ⟨value, hdescribes, hentries⟩ := hkept.states path st hst hpresent
  have hoffset := (hentries e hmem hpath).2.1
  rw [wp_run_bind, wp_run_atomic]
  have htail := hdescribes.tail_length hcorrect
  rw [← hoffset] at htail
  refine wp_mono (probe_spec htail) (fun answer w₂ h => ?_) fun _ _ h => h
  obtain ⟨hreads, hprobed⟩ := h
  rw [wp_run_ite]
  refine ⟨fun _ => ⟨fun _ => hreads, fun _ h => nomatch h⟩, fun hmatch => ?_⟩
  push Not at hmatch
  obtain ⟨f, hf, hwant⟩ := hprobed.sound (by simpa using hmatch.1)
  rw [hfile] at hf
  cases hf
  rw [hst] at hhonest
  have hpre : last path <+: file.bytes := by
    rw [hoffset] at hwant
    exact prefix_of_match hdescribes (Nat.le_of_eq hsize) rfl hhonest hwant
  have hsame : last path = file.bytes := hpre.eq_of_length (hdescribes.size.symm.trans hsize)
  rw [wp_run_bind, wp_run_atomic]
  refine wp_mono reverify_spec (fun live w₃ h => ?_) fun _ _ h => h.elim
  obtain ⟨hfiles, hstates, horder, hdead⟩ := h
  cases live with
  | false =>
    refine ⟨fun _ => ?_, fun _ h => nomatch h⟩
    rw [hdead rfl]
    exact hreads
  | true =>
    refine ⟨fun h => (nomatch h), fun result h => ?_⟩
    cases h
    rw [hreads.cache] at hstates horder
    exact folded_hit hkept (hfiles.trans hreads.files) hstates horder hst hpresent he hsame

/-- What a successful call answers and leaves. -/
def Answers (zero : T) (extend : Extend T) (path : String) (last : Bytes) (w w' : World T)
    (result : Result T) : Prop :=
  match w.files path with
  | none => w'.files = w.files ∧ w'.cache = (w.cache.drop path).2 ∧
      result = { value := zero, absent := true, epoch := (w.cache.drop path).1 }
  | some file => Folded zero extend path last file w w' result

theorem get_spec (hlimit : 0 < maxEntries) (hcorrect : CorrectExtend zero extend)
    {last : String → Bytes} (hkept : Kept zero extend last w.cache)
    (hhonest : Honest (last path) (w.cache.epochStates path) (w.files path)) (canceled : Bool) :
    Tx.wp (run (get disk maxEntries zero extend canceled path)) w
      (fun result w' => Answers zero extend path (last path) w w' result)
      (fun _ w' => Reads w w') := by
  unfold get front
  rw [wp_run_bind, wp_run_ite]
  refine ⟨fun _ => Reads.refl w, fun _ => ?_⟩
  rw [if_neg (by omega), wp_run_bind, wp_run_atomic, wp_attempt]
  refine wp_mono statFile_spec (fun info w₁ h => ?_) fun e w₁ h => ?_
  · obtain ⟨hreads, file, hfile, rfl⟩ := h
    have hfile₁ := hreads.files ▸ hfile
    have hkept₁ : Kept zero extend last w₁.cache := hreads.cache ▸ hkept
    have hhonest₁ : Honest (last path) (w₁.cache.epochStates path) (some file) := by
      rw [hreads.cache, ← hfile]
      exact hhonest
    have hanswers : ∀ {w' result}, Folded zero extend path (last path) file w w' result →
        Answers zero extend path (last path) w w' result := by
      intro w' result h
      unfold Answers
      rw [hfile]
      exact h
    rw [wp_run_bind]
    refine wp_mono (tryFastHit_spec hcorrect hkept₁ hfile₁ hhonest₁) (fun answer w₂ h => ?_)
      fun _ _ h => hreads.trans h
    cases answer with
    | some result => exact hanswers ((h.2 result rfl).after_reads hreads)
    | none =>
      have hreads₂ := h.1 rfl
      show Tx.wp (run (refresh disk maxEntries zero extend path file.info)) w₂ _ _
      exact wp_mono (refresh_spec hcorrect (hreads₂.cache ▸ hkept₁) (hreads₂.files ▸ hfile₁)
        (hreads₂.cache ▸ hhonest₁))
        (fun _ _ h => hanswers (h.after_reads (hreads.trans hreads₂)))
        fun _ _ h => (hreads.trans hreads₂).trans h
  · cases e with
    | notExist =>
      rw [wp_run_bind, wp_run_atomic]
      unfold drop Answers
      rw [wp_bind, wp_read, wp_bind, wp_write, h.2 rfl, ← h.1.cache]
      exact ⟨h.1.files, rfl, rfl⟩
    | _ => exact h.1

/-! ## A fold that keeps the lines -/

def linesExtend : Extend Bytes := fun _ file fromOffset prior =>
  match file with
  | none => .error .notExist
  | some bytes =>
    .ok (prior ++ (completeLines bytes).drop fromOffset, (completeLines bytes).length)

theorem linesExtend_correct : CorrectExtend [] linesExtend where
  resume path before bytes value offset hfold hpre := by
    have hfold := Prod.mk.inj (Except.ok.inj hfold)
    obtain ⟨rfl, rfl⟩ := hfold
    rw [take_completeLines] at hpre
    have hcomplete := completeLines_mono hpre
    rw [completeLines_idem] at hcomplete
    obtain ⟨rest, hrest⟩ := hcomplete
    unfold linesExtend
    dsimp only
    rw [← hrest]
    simp
  consumes path bytes value offset hfold := (Prod.mk.inj (Except.ok.inj hfold)).2.symm

def quiet : Disk := ⟨fun _ => none, fun _ => none⟩

def text (s : String) : Bytes := s.toList.map fun c => c.toNat.toUInt8

/-- One journal, at one path. -/
def oneFile (bytes : Bytes) : String → Option File :=
  Function.update (fun _ => none) "p" (some ⟨bytes, 1⟩)

end Evener.Foldcache
