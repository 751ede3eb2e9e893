/-
  A retained output is recovered exactly, wherever an append is cut off.

  `Recovers` says of the files that a crash leaves that their metadata are accepted and describe
  the stream that has reached the output. The visible start was cut from the end of a shorter
  stream at the same distance (`CutAt`).
-/
import Evener.Jobstore.OutputFiles
import Evener.Jobstore.OutputRuns

namespace Evener.Jobstore

open Evener.Lib List Option

/-! ## Cuts -/

theorem trimLeadingFrom_drops {n m : Nat} {b : Bytes} (hmn : m ≤ n)
    (h : ∀ i < m, ∃ c, b[i]? = some c ∧ runeStart c = false) :
    m ≤ b.length - (trimLeadingFrom n b).length := by
  induction n generalizing m b with
  | zero => omega
  | succ n ih =>
    cases m with
    | zero => exact Nat.zero_le _
    | succ m =>
      obtain ⟨c, hc, hrune⟩ := h 0 (Nat.succ_pos m)
      cases b with
      | nil => cases hc
      | cons c' b =>
        obtain rfl : c' = c := by simpa using hc
        have hrest : m ≤ b.length - (trimLeadingFrom n b).length :=
          ih (Nat.le_of_succ_le_succ hmn) fun i hi => by simpa using h (i + 1) (Nat.succ_lt_succ hi)
        obtain ⟨k, -, hk, hdrop⟩ := trimLeadingFrom_eq_drop n b
        rw [hdrop, length_drop] at hrest
        unfold trimLeadingFrom
        rw [if_neg (by simp [hrune]), hdrop, length_drop, length_cons]
        omega

theorem trimLeadingFrom_dropped (n : Nat) (b : Bytes) :
    ∀ i < b.length - (trimLeadingFrom n b).length, ∃ c, b[i]? = some c ∧ runeStart c = false := by
  induction n generalizing b with
  | zero => simp [trimLeadingFrom]
  | succ n ih =>
    cases b with
    | nil => simp [trimLeadingFrom]
    | cons c b =>
      intro i hi
      unfold trimLeadingFrom at hi
      by_cases hc : runeStart c = true
      · rw [if_pos hc] at hi
        omega
      · rw [if_neg hc] at hi
        cases i with
        | zero => exact ⟨c, rfl, by simpa using hc⟩
        | succ i =>
          refine ih b i ?_
          rw [length_cons] at hi
          omega

/-- `start` is 0, or the end of a rune that was cut `capBytes` before some earlier end. -/
def CutAt (stream : Bytes) (capBytes : Int) (start : Nat) : Prop :=
  start = 0 ∨ ∃ s : Nat, (s : Int) ≤ stream.length - capBytes ∧ s ≤ start ∧ start ≤ s + 3 ∧
    ∀ i : Nat, s ≤ i → i < start → ∃ c, stream[i]? = some c ∧ runeStart c = false

variable {capBytes : Int} {vis : Nat}

theorem CutAt.append {stream : Bytes} {start : Nat} (h : CutAt stream capBytes start) (b : Bytes) :
    CutAt (stream ++ b) capBytes start := by
  rcases h with h | ⟨s, hs, hle, hnear, hrune⟩
  · exact Or.inl h
  · refine Or.inr ⟨s, ?_, hle, hnear, fun i hi hlt => ?_⟩
    · rw [length_append]
      omega
    · obtain ⟨c, hc, hcont⟩ := hrune i hi hlt
      have hlength := (List.getElem?_eq_some_iff.mp hc).1
      exact ⟨c, by rw [getElem?_append_left hlength, hc], hcont⟩

/-- Dropping what does not open a rune makes a cut. -/
theorem cutAt_trim {stream rest : Bytes} {s : Nat} (hs : (s : Int) ≤ stream.length - capBytes)
    (hrest : ∀ i c, rest[i]? = some c → stream[s + i]? = some c) :
    CutAt stream capBytes (s + (rest.length - (trimLeadingPartial rest).length)) := by
  obtain ⟨k, hk, -, -, hdropped⟩ := trimLeadingPartial_spec rest
  have hrune := trimLeadingFrom_dropped 3 rest
  refine Or.inr ⟨s, hs, Nat.le_add_right _ _, by omega, fun i hi hlt => ?_⟩
  obtain ⟨c, hc, hcont⟩ := hrune (i - s) (by
    unfold trimLeadingPartial at hlt
    omega)
  refine ⟨c, ?_, hcont⟩
  rw [← hrest (i - s) c hc]
  congr 1
  omega

/-- A later cut at the same distance from the end is not before an earlier one. -/
theorem CutAt.le_trim {stream rest : Bytes} {start t : Nat} (h : CutAt stream capBytes start)
    (ht : (t : Int) = stream.length - capBytes) (hrest : rest = stream.drop t) :
    start ≤ t + (rest.length - (trimLeadingPartial rest).length) := by
  rcases h with rfl | ⟨s, hs, hle, hnear, hrune⟩
  · exact Nat.zero_le _
  · by_cases hbefore : start ≤ t
    · omega
    · have hdrops : start - t ≤ rest.length - (trimLeadingPartial rest).length := by
        refine trimLeadingFrom_drops (by omega) fun i hi => ?_
        obtain ⟨c, hc, hcont⟩ := hrune (t + i) (by omega) (by omega)
        exact ⟨c, by rw [hrest, getElem?_drop, hc], hcont⟩
      omega

/-- Both boundaries of the store are cuts. -/
structure CutStore (stream : Bytes) (o : OutputStore) : Prop where
  retained : CutAt stream o.capBytes o.retainedStart
  visible : CutAt stream o.capBytes o.visibleStart

variable {stream : Bytes} {o o' : OutputStore}

theorem CutStore.appended (h : CutStore stream o) (b : Bytes) :
    CutStore (stream ++ b) (o.appended b) :=
  ⟨h.retained.append b, h.visible.append b⟩

/-! ## Compaction -/

/-- What the prune makes of a store: the store itself, or its tail. -/
structure Compacted (stream : Bytes) (o o' : OutputStore) : Prop where
  smaller : o'.file.length < o.file.length
  start : ∀ vis, CutAt stream o.capBytes vis → vis ≤ o'.retainedStart
  cut : CutAt stream o.capBytes o'.retainedStart

theorem pruneLocked_cases (h : Suffix stream o) (hcap : o.capBytes < 2 ^ 62)
    (hprune : o.pruneLocked = some o') :
    (o.compacts = false ∧ o' = o) ∨ (o.compacts = true ∧ Compacted stream o o') := by
  have hlength := h.length
  have hretained := h.retained
  have htotal := h.total
  unfold OutputStore.pruneLocked at hprune
  unfold OutputStore.compacts
  split at hprune
  · next hpos =>
    obtain rfl := some.inj hprune
    exact Or.inl ⟨by simp; omega, rfl⟩
  · next hpos =>
    split at hprune
    · next hsmall =>
      have hsame : o.total - o.file.length = o.retainedStart := by omega
      rw [hsame] at hprune
      obtain rfl := some.inj hprune
      exact Or.inl ⟨by simp; omega, rfl⟩
    · next hlarge =>
      have hcompacts : (decide (0 < o.capBytes) && decide (o.compactAt < o.file.length)) = true := by
        simp
        omega
      unfold OutputStore.compactAt at hlarge
      rw [Int.bmod_eq_of_le (by omega) (by omega)] at hlarge
      rw [if_neg (by omega)] at hprune
      obtain ⟨flag, -, rfl⟩ := map_eq_some_iff.mp hprune
      obtain ⟨k, hk, hkraw, htail, hdropped⟩ := trimLeadingPartial_spec o.rawTail
      have hraw := o.rawTail_length (by omega)
      have hkept : (trimLeadingPartial o.rawTail).length = o.capBytes.toNat - k := by
        rw [htail, length_drop, hraw]
      have hrest : o.rawTail = stream.drop (o.total - o.capBytes.toNat) := by
        unfold OutputStore.rawTail
        rw [h.file, drop_drop, ← h.file]
        congr 1
        omega
      have hstart : o.total - (trimLeadingPartial o.rawTail).length =
          (o.total - o.capBytes.toNat) +
            (o.rawTail.length - (trimLeadingPartial o.rawTail).length) := by
        omega
      refine Or.inr ⟨hcompacts, ?_, fun vis hvis => ?_, ?_⟩
      · dsimp only
        omega
      · dsimp only
        rw [hstart]
        exact hvis.le_trim (by omega) hrest
      · dsimp only
        rw [hstart]
        refine cutAt_trim (by omega) fun i c hc => ?_
        rw [hrest, getElem?_drop] at hc
        exact hc

theorem pruneLocked_cut (h : Suffix stream o) (hcut : CutStore stream o)
    (hcap : o.capBytes < 2 ^ 62) (hprune : o.pruneLocked = some o') : CutStore stream o' := by
  have hspec := pruneLocked_spec h hprune
  rcases pruneLocked_cases h hcap hprune with ⟨-, rfl⟩ | ⟨-, hcompacted⟩
  · exact hcut
  · refine ⟨?_, ?_⟩
    · rw [hspec.capBytes]
      exact hcompacted.cut
    · rw [hspec.capBytes, hspec.visibleStart]
      exact hcut.visible

theorem refreshVisibleLocked_cut (h : Suffix stream o) (hcut : CutStore stream o)
    (hrefresh : o.refreshVisibleLocked = some o') : CutStore stream o' := by
  have hclamped : CutStore stream o.clampVisible := by
    unfold OutputStore.clampVisible
    split
    · exact ⟨hcut.retained, hcut.retained⟩
    · exact hcut
  obtain ⟨hsuffix, -, hordered, -, -⟩ := clampVisible_spec h
  unfold OutputStore.refreshVisibleLocked at hrefresh
  dsimp only at hrefresh
  generalize o.clampVisible = c at hrefresh hclamped hsuffix hordered
  have htotal := hsuffix.total
  split at hrefresh
  · obtain rfl := some.inj hrefresh
    exact hclamped
  · next hmoves =>
    split at hrefresh
    · cases hrefresh
    · next previous rest hwindow =>
      obtain rfl := some.inj hrefresh
      have hfar : ((c.total - c.capBytes.toNat : Nat) : Int) ≤ stream.length - c.capBytes := by
        omega
      refine ⟨hclamped.retained, cutAt_trim hfar fun i b hb => ?_⟩
      -- the window starts one byte before the cut
      have hat : (previous :: rest)[i + 1]? = some b := by simpa using hb
      have hlt : i + 1 < utfMax := by
        have hlength := (List.getElem?_eq_some_iff.mp hat).1
        rw [← hwindow, length_take] at hlength
        omega
      rw [← hwindow, getElem?_take_of_lt hlt, getElem?_drop, hsuffix.getElem] at hat
      rw [← hat]
      congr 1
      omega

/-! ## What the files describe -/

variable {δ : Type} [DecidableEq δ] {sha256 : Bytes → δ} {r r' : Retained δ}

/-- The metadata are accepted, describe the stream and hide at least what is before `vis`. -/
def Recovers (sha256 : Bytes → δ) (stream : Bytes) (vis : Nat) (files : OutputFiles δ) : Prop :=
  ∃ outputMeta, readOutputMetaRecordForFile sha256 files = .ok outputMeta ∧ ∀ capBytes,
    Suffix stream (OutputStore.described files.output outputMeta capBytes) ∧
      vis ≤ (OutputStore.described files.output outputMeta capBytes).visibleStart

/-- The final metadata are read where nothing is pending. -/
theorem recovers_final {stream : Bytes} {file : Bytes} {finalMeta : OutputMeta δ}
    {outputMeta : OutputMeta δ}
    (hread : OutputMeta.readOutputMetaRecord sha256 (some finalMeta) file = some outputMeta)
    (h : ∀ capBytes, Suffix stream (OutputStore.described file outputMeta capBytes) ∧
      vis ≤ (OutputStore.described file outputMeta capBytes).visibleStart) :
    Recovers sha256 stream vis ⟨file, some finalMeta, none⟩ := by
  refine ⟨outputMeta, ?_, h⟩
  unfold readOutputMetaRecordForFile readValidPendingOutputMeta
  simp only [pure_bind, hread]
  rfl

omit [DecidableEq δ] in
theorem described_total (file : Bytes) (outputMeta : OutputMeta δ) (capBytes : Int) :
    (OutputStore.described file outputMeta capBytes).total = outputMeta.totalBytes := by
  unfold OutputStore.described OutputMeta.outputViewOf
  split
  · rfl
  · split_ifs <;> rfl

omit [DecidableEq δ] in
theorem described_retainedStart (file : Bytes) (outputMeta : OutputMeta δ) (capBytes : Int) :
    (OutputStore.described file outputMeta capBytes).retainedStart = outputMeta.retainedStart := by
  unfold OutputStore.described OutputMeta.outputViewOf
  split
  · rfl
  · split_ifs <;> rfl

omit [DecidableEq δ] in
theorem outputViewOf_visibleStart {outputMeta : OutputMeta δ}
    (h : outputMeta.visibleStart = some vis) (hinside : outputMeta.retainedStart < vis)
    (hvis : vis ≤ outputMeta.totalBytes) : outputMeta.outputViewOf.visibleStart = vis := by
  unfold OutputMeta.outputViewOf
  rw [h]
  dsimp only
  rw [if_pos ⟨hinside, hvis⟩]

omit [DecidableEq δ] in
theorem outputViewOf_no_visibleStart {outputMeta : OutputMeta δ}
    (h : outputMeta.visibleStart = none) :
    outputMeta.outputViewOf.visibleStart = outputMeta.retainedStart := by
  unfold OutputMeta.outputViewOf
  rw [h]

/-- Bytes that follow what the metadata describe belong to the stream. -/
theorem Settled.recovers_written (h : Settled sha256 stream r) (c : Bytes) :
    Recovers sha256 (stream ++ c) r.store.visibleStart ⟨r.store.file ++ c, some r.outputMeta, none⟩ := by
  have hlength := h.suffix.length
  have hvisible := h.suffix.visible
  have hordered := h.ordered
  have hbelow : r.store.visibleStart ≤ (stream ++ c).length := by
    rw [length_append, ← h.suffix.total]
    omega
  have htotal : r.store.retainedStart + (r.store.file ++ c).length = (stream ++ c).length := by
    rw [length_append, length_append, ← h.suffix.total]
    omega
  have hread : OutputMeta.readOutputMetaRecord sha256 (some r.outputMeta) (r.store.file ++ c) =
      some { r.outputMeta with
        totalBytes := r.store.retainedStart + (r.store.file ++ c).length
        retainedSHA256 := some (sha256 (r.store.file ++ c)) } := by
    rw [h.outputMeta]
    unfold OutputMeta.readOutputMetaRecord OutputStore.outputMetaLocked
    dsimp only
    rw [if_neg (by omega)]
    split
    · rw [if_neg]
      rw [h.suffix.hash, ← hlength, take_left]
      exact fun hne => hne rfl
    · next hall =>
      have hnil : c = [] := by
        rw [length_append] at hall
        exact eq_nil_of_length_eq_zero (by omega)
      subst hnil
      rw [append_nil, h.suffix.hash, if_neg (by simp; omega)]
      congr 2
      omega
  have hvis : ∀ outputMeta : OutputMeta δ, outputMeta = { r.outputMeta with
        totalBytes := r.store.retainedStart + (r.store.file ++ c).length
        retainedSHA256 := some (sha256 (r.store.file ++ c)) } →
      outputMeta.totalBytes = (stream ++ c).length ∧
        outputMeta.retainedStart = r.store.retainedStart ∧
        outputMeta.outputViewOf.visibleStart = r.store.visibleStart := by
    rintro outputMeta heq
    have hstart : outputMeta.retainedStart = r.store.retainedStart := by
      rw [heq, h.outputMeta]
      rfl
    have hsum : outputMeta.totalBytes = (stream ++ c).length := by
      rw [heq]
      exact htotal
    refine ⟨hsum, hstart, ?_⟩
    by_cases hinside : r.store.retainedStart < r.store.visibleStart
    · refine outputViewOf_visibleStart ?_ (hstart ▸ hinside) (hsum ▸ hbelow)
      rw [heq, h.outputMeta]
      exact if_pos hinside
    · rw [outputViewOf_no_visibleStart, hstart]
      · omega
      · rw [heq, h.outputMeta]
        exact if_neg hinside
  obtain ⟨hmetaTotal, hstart, hvis⟩ := hvis _ rfl
  refine recovers_final hread fun capBytes => ⟨⟨?_, ?_, ?_, ?_, rfl⟩, Nat.le_of_eq hvis.symm⟩
  · rw [described_retainedStart, hstart]
    exact (h.suffix.appended c).file
  · rw [described_total, hmetaTotal]
  · rw [described_retainedStart, described_total, hstart, hmetaTotal]
    omega
  · rw [described_total, hmetaTotal]
    exact Nat.le_trans (Nat.le_of_eq hvis) hbelow

/-- A settled output is recovered as it is. -/
theorem Settled.recovers (h : Settled sha256 stream r) :
    Recovers sha256 stream r.store.visibleStart r.files := by
  have hwritten := h.recovers_written []
  rwa [append_nil, append_nil] at hwritten

omit [DecidableEq δ] in
theorem Suffix.pendingMeta_bytes {p : OutputStore} (h : Suffix stream p) :
    outputMetaRetainedBytes (p.pendingMeta sha256) = .ok p.file.length := by
  have hretained := h.retained
  unfold outputMetaRetainedBytes OutputStore.pendingMeta
  dsimp only
  rw [if_neg (by omega), h.length]
  rfl

/-- The tail under its pending metadata. -/
theorem Suffix.recovers_tail {p : OutputStore} (h : Suffix stream p) (hvis : vis ≤ p.retainedStart)
    (finalMeta : Option (OutputMeta δ)) :
    Recovers sha256 stream vis ⟨p.file, finalMeta, some (p.pendingMeta sha256)⟩ := by
  refine ⟨p.pendingMeta sha256, ?_, fun capBytes => ⟨⟨h.file, h.total, h.retained, h.retained, rfl⟩,
    hvis⟩⟩
  unfold readOutputMetaRecordForFile readValidPendingOutputMeta
  dsimp only
  rw [h.pendingMeta_bytes]
  show (if p.file.length < p.file.length then _ else _ : Except OutputMetaError _) >>= _ = _
  rw [if_neg (Nat.lt_irrefl _), if_neg (Nat.lt_irrefl _), if_neg (fun hne => hne rfl)]
  rfl

theorem outputFileHasPrefixSHA256_eq {file : Bytes} {n : Nat} (h : n ≤ file.length) :
    outputFileHasPrefixSHA256 sha256 file n (some (sha256 (file.take n))) = .ok true := by
  unfold outputFileHasPrefixSHA256
  rw [if_neg (by omega)]
  simp [pure, Except.pure]

theorem outputFileHasSuffixSHA256_eq {file : Bytes} {start n : Nat} (h : start + n ≤ file.length) :
    outputFileHasSuffixSHA256 sha256 file start n (some (sha256 ((file.drop start).take n))) =
      .ok true := by
  unfold outputFileHasSuffixSHA256
  rw [if_neg (by omega)]
  simp [pure, Except.pure]

/-- The old file under the metadata pending for its tail. -/
theorem Settled.recovers_pending (h : Settled sha256 stream r) (b : Bytes) {p : OutputStore}
    (hp : Suffix (stream ++ b) p) (hsmaller : p.file.length < (r.store.file ++ b).length) :
    Recovers sha256 (stream ++ b) r.store.visibleStart
      ⟨r.store.file ++ b, some r.outputMeta, some (p.pendingMeta sha256)⟩ := by
  have hold := h.suffix.appended b
  have hlength : (r.store.file ++ b).length = (stream ++ b).length - r.store.retainedStart := by
    have hlength := hold.length
    rwa [hold.total] at hlength
  have hretained : r.store.retainedStart ≤ (stream ++ b).length := hold.total ▸ hold.retained
  have hplength := hp.length
  have hpretained := hp.retained
  rw [hp.total] at hplength hpretained
  have hstart : p.retainedStart =
      r.store.retainedStart + ((r.store.file ++ b).length - p.file.length) := by
    omega
  have htail : ((r.store.file ++ b).drop ((r.store.file ++ b).length - p.file.length)).take
      p.file.length = p.file := by
    have hfile : r.store.file ++ b = (stream ++ b).drop r.store.retainedStart := hold.file
    rw [hfile, drop_drop, ← hfile, ← hstart, ← hp.file, take_length]
  have hsuffix : outputFileHasSuffixSHA256 sha256 (r.store.file ++ b)
      ((r.store.file ++ b).length - p.file.length) p.file.length (some (sha256 p.file)) =
      .ok true := by
    have hcheck := @outputFileHasSuffixSHA256_eq δ _ sha256 (r.store.file ++ b)
      ((r.store.file ++ b).length - p.file.length) p.file.length (by omega)
    rwa [htail] at hcheck
  have hfinal : outputMetaRetainedBytes r.outputMeta = .ok r.store.file.length := by
    rw [h.outputMeta]
    unfold outputMetaRetainedBytes OutputStore.outputMetaLocked
    rw [if_neg (Nat.not_lt.mpr h.suffix.retained), h.suffix.length]
    rfl
  have hprefix : outputFileHasPrefixSHA256 sha256 (r.store.file ++ b) r.store.file.length
      r.outputMeta.retainedSHA256 = .ok true := by
    have hcheck := @outputFileHasPrefixSHA256_eq δ _ sha256 (r.store.file ++ b)
      r.store.file.length (by simp)
    rw [take_left] at hcheck
    rw [h.outputMeta]
    unfold OutputStore.outputMetaLocked
    rw [h.suffix.hash]
    exact hcheck
  have hmetaStart : r.outputMeta.retainedStart = r.store.retainedStart := by
    rw [h.outputMeta]
    rfl
  have hread : readPendingOverOldFile sha256
      ⟨r.store.file ++ b, some r.outputMeta, some (p.pendingMeta sha256)⟩ (p.pendingMeta sha256)
      p.file.length = .ok (pendingOverOldFile (p.pendingMeta sha256) r.outputMeta
        (r.store.file ++ b).length (sha256 (r.store.file ++ b))) := by
    unfold readPendingOverOldFile OutputStore.pendingMeta
    dsimp only
    rw [hsuffix]
    simp only [hfinal, hprefix, bind, Except.bind, pure, Except.pure, if_true, hmetaStart]
    have htotal := hp.total
    rw [if_neg (by omega), if_neg]
    rw [length_append] at hlength hstart ⊢
    omega
  have hview : r.outputMeta.outputViewOf.visibleStart = r.store.visibleStart := (h.described 0).2.1
  have hvisible := hold.visible
  rw [hold.total] at hvisible
  obtain ⟨old, hover⟩ : ∃ old, old = pendingOverOldFile (p.pendingMeta sha256) r.outputMeta
      (r.store.file ++ b).length (sha256 (r.store.file ++ b)) := ⟨_, rfl⟩
  have hoverTotal : old.totalBytes = (stream ++ b).length := by
    rw [hover, ← hp.total]
    rfl
  have hoverStart : old.retainedStart = r.store.retainedStart := by
    have hsame : old.retainedStart = p.total - (r.store.file ++ b).length := by
      rw [hover]
      rfl
    rw [hsame, hp.total]
    omega
  have hoverVisible : old.outputViewOf.visibleStart = max p.retainedStart r.store.visibleStart := by
    refine outputViewOf_visibleStart ?_ ?_ ?_
    · rw [hover]
      unfold pendingOverOldFile OutputStore.pendingMeta
      dsimp only
      rw [hview]
      split
      · next hlt => rw [Nat.max_eq_right (Nat.le_of_lt hlt)]
      · next hge => rw [Nat.max_eq_left (Nat.le_of_not_lt hge)]
    · omega
    · rw [hoverTotal]
      exact Nat.max_le.mpr ⟨hpretained, hvisible⟩
  refine ⟨old, ?_, fun capBytes => ⟨⟨?_, ?_, ?_, ?_, rfl⟩, ?_⟩⟩
  · unfold readOutputMetaRecordForFile readValidPendingOutputMeta
    simp only [hp.pendingMeta_bytes, bind, Except.bind, if_pos hsmaller, hread, pure, Except.pure]
    rw [hover]
  · rw [described_retainedStart, hoverStart]
    exact hold.file
  · rw [described_total, hoverTotal]
  · rw [described_total, described_retainedStart, hoverTotal, hoverStart]
    exact hretained
  · rw [described_total, hoverTotal]
    refine Nat.le_trans (Nat.le_of_eq hoverVisible) (Nat.max_le.mpr ⟨hpretained, hvisible⟩)
  · exact Nat.le_trans (Nat.le_max_right _ _) (Nat.le_of_eq hoverVisible.symm)

/-! ## Crashes -/

theorem Recovers.mono {files : OutputFiles δ} {vis' : Nat} (h : Recovers sha256 stream vis files)
    (hle : vis' ≤ vis) : Recovers sha256 stream vis' files := by
  obtain ⟨outputMeta, hread, hdescribes⟩ := h
  exact ⟨outputMeta, hread, fun capBytes =>
    ⟨(hdescribes capBytes).1, Nat.le_trans hle (hdescribes capBytes).2⟩⟩

theorem refreshVisibleLocked_file (hrefresh : o.refreshVisibleLocked = some o') :
    o'.file = o.file := by
  have hclamp : o.clampVisible.file = o.file := by
    unfold OutputStore.clampVisible
    split
    · rfl
    · rfl
  unfold OutputStore.refreshVisibleLocked at hrefresh
  dsimp only at hrefresh
  split at hrefresh
  · obtain rfl := some.inj hrefresh
    exact hclamp
  · split at hrefresh
    · cases hrefresh
    · obtain rfl := some.inj hrefresh
      exact hclamp

/-- The settled store and its cuts. -/
structure Crashable (sha256 : Bytes → δ) (stream : Bytes) (r : Retained δ) : Prop where
  settled : Settled sha256 stream r
  cut : CutStore stream r.store
  capBytes : r.store.capBytes < 2 ^ 62

/-- Whatever an append has done before a crash, the files describe what has reached the stream. -/
theorem Crashable.append_recovers (h : Crashable sha256 stream r) {b : Bytes}
    {left : OutputFiles δ} {reached : Bytes}
    (hcrash : Crashed r.files (r.store.appendSteps sha256 b) left reached) :
    Recovers sha256 (stream ++ reached) r.store.visibleStart left := by
  have hsuffix := h.settled.suffix.appended b
  have hcut := h.cut.appended b
  obtain ⟨pruned, hprune⟩ := pruneLocked_succeeds hsuffix h.capBytes
  have hpruned := pruneLocked_spec hsuffix hprune
  obtain ⟨seen, hrefresh⟩ := refreshVisibleLocked_succeeds hpruned.suffix
  -- the store after the whole append
  have hsettle : (r.store.appended b).settle sha256 = some ⟨seen, seen.outputMetaLocked sha256⟩ := by
    unfold OutputStore.settle
    rw [hprune]
    show (pruned.refreshVisibleLocked).map _ = _
    rw [hrefresh]
    rfl
  have hdone := output_append_spec h.settled b hsettle
  have hafter := hdone.settled.recovers
  unfold OutputStore.appendSteps at hcrash
  rw [hprune] at hcrash
  simp only [hrefresh] at hcrash
  have hfile : seen.file = pruned.file := refreshVisibleLocked_file hrefresh
  have hforward : r.store.visibleStart ≤ seen.visibleStart := hdone.forward
  cases hcrash with
  | here => simpa [Retained.files] using h.settled.recovers_written []
  | torn => exact h.settled.recovers_written _
  | later hcrash =>
    have hwritten := h.settled.recovers_written b
    rcases pruneLocked_cases hsuffix h.capBytes hprune with ⟨hkeeps, rfl⟩ | ⟨hcompacts, hcompacted⟩
    · -- no compaction: the final metadata are all that changes
      unfold OutputStore.pruneSteps OutputStore.persistSteps at hcrash
      rw [hkeeps] at hcrash
      have hmeta : Recovers sha256 (stream ++ b) r.store.visibleStart
          ⟨r.store.file ++ b, some (seen.outputMetaLocked sha256), none⟩ := by
        have hsame : r.store.file ++ b = seen.file := hfile.symm
        rw [hsame]
        exact hafter.mono hforward
      cases hcrash with
      | here =>
        simp only [FsStep.bytes, append_nil]
        exact hwritten
      | later hcrash =>
        cases hcrash with
        | here =>
          simp only [FsStep.bytes, append_nil]
          exact hmeta
        | later hcrash =>
          cases hcrash with
          | here =>
            simp only [FsStep.bytes, append_nil]
            exact hmeta
    · have hstart := hcompacted.start _ hcut.visible
      unfold OutputStore.pruneSteps OutputStore.persistSteps at hcrash
      rw [hcompacts] at hcrash
      cases hcrash with
      | here =>
        simp only [FsStep.bytes, append_nil]
        exact hwritten
      | later hcrash =>
        cases hcrash with
        | here =>
          simp only [FsStep.bytes, append_nil]
          exact h.settled.recovers_pending b hpruned.suffix hcompacted.smaller
        | later hcrash =>
          cases hcrash with
          | here =>
            simp only [FsStep.bytes, append_nil]
            exact hpruned.suffix.recovers_tail hstart _
          | later hcrash =>
            cases hcrash with
            | here =>
              simp only [FsStep.bytes, append_nil]
              exact hpruned.suffix.recovers_tail hstart _
            | later hcrash =>
              cases hcrash with
              | here =>
                have hlast := hafter.mono hforward
                unfold Retained.files at hlast
                rw [hfile] at hlast
                simp only [FsStep.bytes, append_nil]
                exact hlast

/-! ## Runs -/

theorem settle_crashable (h : Suffix stream o) (hcut : CutStore stream o)
    (hcap : o.capBytes < 2 ^ 62) (hsettle : o.settle sha256 = some r) :
    Crashable sha256 stream r ∧ r.store.capBytes = o.capBytes := by
  have hspec := settle_spec h hsettle
  unfold OutputStore.settle at hsettle
  obtain ⟨o₂, hboth, rfl⟩ := map_eq_some_iff.mp hsettle
  obtain ⟨o₁, hprune, hrefresh⟩ := bind_eq_some_iff.mp hboth
  have hpruned := pruneLocked_spec h hprune
  have hrefreshed := refreshVisibleLocked_spec hpruned.suffix hrefresh
  have hsame : o₂.capBytes = o.capBytes := hrefreshed.capBytes.trans hpruned.capBytes
  refine ⟨⟨hspec.settled, ?_, ?_⟩, hsame⟩
  · exact refreshVisibleLocked_cut hpruned.suffix (pruneLocked_cut h hcut hcap hprune) hrefresh
  · exact hsame ▸ hcap

omit [DecidableEq δ] in
/-- A 64-bit cap under which an output can be created can be doubled. -/
theorem createOutput_capBytes (hint : capBytes < 2 ^ 63)
    (h : OutputStore.createOutput sha256 capBytes = some r) : capBytes < 2 ^ 62 := by
  by_contra hlarge
  have hnegative : (2 * capBytes).bmod (2 ^ 64) < 0 := by
    rw [Int.bmod_def]
    split
    · omega
    · omega
  have hnone : (OutputStore.created capBytes).pruneLocked = none := by
    unfold OutputStore.pruneLocked OutputStore.compactAt OutputStore.created
    dsimp only
    rw [if_neg (by omega), if_neg, if_pos]
    · simp only [length_nil]
      omega
    · simp only [length_nil]
      omega
  unfold OutputStore.createOutput OutputStore.settle at h
  rw [hnone] at h
  cases h

theorem createOutput_crashable (hcap : capBytes < 2 ^ 62)
    (h : OutputStore.createOutput sha256 capBytes = some r) :
    Crashable sha256 [] r ∧ r.store.capBytes = capBytes :=
  settle_crashable ⟨rfl, rfl, Nat.le_refl _, Nat.le_refl _, rfl⟩ ⟨Or.inl rfl, Or.inl rfl⟩ hcap h

theorem Crashable.appends (h : Crashable sha256 stream r) {appends : List Bytes}
    (hrun : appends.foldlM (fun r b => r.store.append sha256 b) r = some r') :
    Crashable sha256 (stream ++ appends.flatten) r' ∧
      r'.store.capBytes = r.store.capBytes := by
  induction appends generalizing stream r with
  | nil =>
    obtain rfl := some.inj hrun
    rw [flatten_nil, append_nil]
    exact ⟨h, rfl⟩
  | cons b appends ih =>
    rw [foldlM_cons] at hrun
    obtain ⟨r₁, happend, hrest⟩ := bind_eq_some_iff.mp hrun
    obtain ⟨hcrashable, hcap⟩ := settle_crashable (h.settled.suffix.appended b) (h.cut.appended b)
      h.capBytes happend
    obtain ⟨hlast, hsame⟩ := ih hcrashable hrest
    rw [flatten_cons, ← append_assoc]
    exact ⟨hlast, hsame.trans hcap⟩

/-- Cut off an append of an output anywhere and open the files that are left, under the cap of the
    output or any that can be doubled: this succeeds, the total counts what has reached the stream,
    every byte of the file is at its offset, and the visible start has not moved back. -/
theorem openOutputFiles_after_crash {capBytes : Int} (hint : capBytes < 2 ^ 63)
    {appends : List Bytes} (hrun : runAppends sha256 capBytes appends = some r) {b : Bytes}
    {left : OutputFiles δ} {reached : Bytes}
    (hcrash : Crashed r.files (r.store.appendSteps sha256 b) left reached) {capBytes' : Int}
    (hopen : capBytes' = capBytes ∨ capBytes' < 2 ^ 62) :
    ∃ r', openOutputFiles sha256 left capBytes' = some r' ∧
      r'.store.total = (appends.flatten ++ reached).length ∧
      r'.store.retainedStart + r'.store.file.length = r'.store.total ∧
      (∀ i < r'.store.file.length,
        r'.store.file[i]? = (appends.flatten ++ reached)[r'.store.retainedStart + i]?) ∧
      r.store.visibleStart ≤ r'.store.visibleStart := by
  obtain ⟨r₀, hcreate, happends⟩ := bind_eq_some_iff.mp hrun
  have hcap := createOutput_capBytes hint hcreate
  obtain ⟨hcrashable, -⟩ := (createOutput_crashable hcap hcreate).1.appends happends
  rw [nil_append] at hcrashable
  obtain ⟨outputMeta, hread, hdescribes⟩ := hcrashable.append_recovers hcrash
  obtain ⟨hsuffix, hvis⟩ := hdescribes capBytes'
  have hcap' : capBytes' < 2 ^ 62 := by omega
  obtain ⟨r', hsettle⟩ : ∃ r', (OutputStore.described left.output outputMeta capBytes').settle
      sha256 = some r' := settle_succeeds hsuffix hcap'
  have hspec := settle_spec hsuffix hsettle
  refine ⟨r', ?_, hspec.settled.suffix.total, ?_, fun i _ => hspec.settled.suffix.getElem i,
    Nat.le_trans hvis hspec.forward⟩
  · unfold openOutputFiles
    rw [hread]
    exact hsettle
  · have hretained := hspec.settled.suffix.retained
    rw [hspec.settled.suffix.length]
    omega

/-- Two lines under a cap of two bytes; the append of the second is cut off after its tail has
    replaced the output. -/
def cutAfterTail : OutputFiles Bytes where
  output := [0x63, 0x64]
  finalMeta := some
    { totalBytes := 2
      retainedStart := 0
      retainedStartPartial := some false
      retainedSHA256 := some [0x61, 0x0a] }
  pendingMeta := some
    { totalBytes := 5
      retainedStart := 3
      retainedStartPartial := some true
      retainedSHA256 := some [0x63, 0x64] }

theorem cutAfterTail_opens : ∃ r', openOutputFiles id cutAfterTail 2 = some r' ∧
    r'.store.total = 5 ∧ r'.store.retainedStart + r'.store.file.length = r'.store.total ∧
    (∀ i < r'.store.file.length, r'.store.file[i]? =
      ([0x61, 0x0a, 0x62, 0x63, 0x64] : Bytes)[r'.store.retainedStart + i]?) ∧
    0 ≤ r'.store.visibleStart :=
  @openOutputFiles_after_crash Bytes _ id _ 2 (by decide) [[0x61, 0x0a]] rfl [0x62, 0x63, 0x64]
    cutAfterTail [0x62, 0x63, 0x64] (.later (.later (.later (.here _ _)))) 2 (Or.inl rfl)

end Evener.Jobstore
