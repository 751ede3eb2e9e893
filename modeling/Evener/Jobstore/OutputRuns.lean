/-
  The offsets of a retained output stay exact over any calls and reopens.

  A settled store holds a suffix of the stream (`Suffix`) and says of its two boundaries whether a
  line continues there (`Marks`), except after a compaction to nothing (`Drains`).
-/
import Evener.Jobstore.Output

namespace Evener.Jobstore

open Evener.Lib List Option

/-! ## Cutting at a rune -/

theorem trimLeadingFrom_eq_drop (n : Nat) (b : Bytes) :
    ∃ k, k ≤ n ∧ k ≤ b.length ∧ trimLeadingFrom n b = b.drop k := by
  obtain ⟨cut, hcut⟩ := trimLeadingFrom_suffix n b
  have hlength := congrArg List.length hcut
  rw [length_append] at hlength
  have hle := le_length_trimLeadingFrom n b
  exact ⟨cut.length, by omega, by omega, by rw [← hcut, drop_left, hcut]⟩

/-- What is trimmed is a prefix of at most three bytes. -/
theorem trimLeadingPartial_spec (b : Bytes) :
    ∃ k, k ≤ 3 ∧ k ≤ b.length ∧ trimLeadingPartial b = b.drop k ∧
      b.length - (trimLeadingPartial b).length = k := by
  obtain ⟨k, hk, hlength, hdrop⟩ := trimLeadingFrom_eq_drop 3 b
  refine ⟨k, hk, hlength, hdrop, ?_⟩
  unfold trimLeadingPartial
  rw [hdrop, length_drop]
  omega

/-! ## Suffixes of the stream -/

/-- The file is the stream from `retainedStart` on. -/
structure Suffix (stream : Bytes) (o : OutputStore) : Prop where
  file : o.file = stream.drop o.retainedStart
  total : o.total = stream.length
  retained : o.retainedStart ≤ o.total
  visible : o.visibleStart ≤ o.total
  hash : o.retainedHash = o.file

/-- The flag tells whether a line continues at `start`. -/
def Marks (stream : Bytes) (start : Nat) (flag : Bool) : Prop :=
  flag = true ↔ 0 < start ∧ stream[start - 1]? ≠ some newline

theorem Marks.of_getElem {stream : Bytes} {start : Nat} {previous : UInt8} (hpos : 0 < start)
    (h : stream[start - 1]? = some previous) : Marks stream start (previous != newline) := by
  unfold Marks
  rw [h]
  simp [hpos]

theorem Marks.append {stream : Bytes} {start : Nat} {flag : Bool} (h : Marks stream start flag)
    (hstart : start ≤ stream.length) (b : Bytes) : Marks (stream ++ b) start flag := by
  unfold Marks at h ⊢
  rw [h]
  by_cases hpos : 0 < start
  · rw [getElem?_append_left (by omega)]
  · simp [hpos]

/-- The store says of both boundaries whether a line continues there. -/
structure Marked (stream : Bytes) (o : OutputStore) : Prop where
  retained : Marks stream o.retainedStart o.retainedStartPartial
  visible : Marks stream o.visibleStart o.visiblePartial

variable {stream : Bytes} {o o' : OutputStore}

theorem Suffix.length (h : Suffix stream o) : o.file.length = o.total - o.retainedStart := by
  rw [h.file, length_drop, h.total]

theorem Suffix.getElem (h : Suffix stream o) (i : Nat) :
    o.file[i]? = stream[o.retainedStart + i]? := by
  rw [h.file, getElem?_drop]

theorem Suffix.appended (h : Suffix stream o) (b : Bytes) :
    Suffix (stream ++ b) (o.appended b) where
  file := by
    have hlength : o.retainedStart ≤ stream.length := h.total ▸ h.retained
    show o.file ++ b = (stream ++ b).drop o.retainedStart
    rw [h.file, drop_append_of_le_length hlength]
  total := by
    show o.total + b.length = (stream ++ b).length
    rw [h.total, length_append]
  retained := Nat.le_add_right_of_le h.retained
  visible := Nat.le_add_right_of_le h.visible
  hash := by
    show o.retainedHash ++ b = o.file ++ b
    rw [h.hash]

/-! ## Compaction -/

/-- Compaction of the file would leave nothing. -/
def Drains (file : Bytes) (capBytes : Int) : Prop :=
  0 < capBytes ∧ 2 * capBytes < file.length ∧
    trimLeadingPartial (file.drop (file.length - capBytes.toNat)) = []

instance (file : Bytes) (capBytes : Int) : Decidable (Drains file capBytes) :=
  inferInstanceAs (Decidable (_ ∧ _))

theorem OutputStore.rawTail_length (o : OutputStore) (h : o.capBytes.toNat ≤ o.file.length) :
    o.rawTail.length = o.capBytes.toNat := by
  unfold OutputStore.rawTail
  rw [length_drop]
  omega

/-- The byte that is read is the one before those that are kept. -/
theorem prunedByte_eq (hkeep : o.capBytes.toNat ≤ o.file.length) {previous : UInt8}
    (h : o.prunedByte = some previous) :
    (trimLeadingPartial o.rawTail).length < o.file.length ∧
      o.file[o.file.length - (trimLeadingPartial o.rawTail).length - 1]? = some previous := by
  obtain ⟨k, _, hk, htail, hdropped⟩ := trimLeadingPartial_spec o.rawTail
  have hraw := o.rawTail_length (by omega)
  unfold OutputStore.prunedByte at h
  dsimp only at h
  rw [hdropped] at h
  rw [htail, length_drop]
  split at h
  · next hpos =>
    unfold OutputStore.rawTail at h
    rw [getElem?_drop] at h
    refine ⟨by omega, ?_⟩
    rw [← h]
    congr 1
    omega
  · split at h
    · cases h
    · refine ⟨by omega, ?_⟩
      rw [← h]
      congr 1
      omega

structure Prunes (stream : Bytes) (o o' : OutputStore) : Prop where
  suffix : Suffix stream o'
  capBytes : o'.capBytes = o.capBytes
  visibleStart : o'.visibleStart = o.visibleStart
  visiblePartial : o'.visiblePartial = o.visiblePartial
  marks : Marks stream o.retainedStart o.retainedStartPartial → ¬ Drains o.file o.capBytes →
    Marks stream o'.retainedStart o'.retainedStartPartial

theorem pruneLocked_spec (h : Suffix stream o) (hprune : o.pruneLocked = some o') :
    Prunes stream o o' := by
  unfold OutputStore.pruneLocked at hprune
  split at hprune
  · obtain rfl := some.inj hprune
    exact ⟨h, rfl, rfl, rfl, fun hmarks _ => hmarks⟩
  · next hcap =>
    split at hprune
    · have hlength := h.length
      have hretained := h.retained
      have hsame : o.total - o.file.length = o.retainedStart := by omega
      rw [hsame] at hprune
      obtain rfl := some.inj hprune
      exact ⟨h, rfl, rfl, rfl, fun hmarks _ => hmarks⟩
    · next hlarge =>
      split at hprune
      · cases hprune
      · next hkeep =>
        obtain ⟨flag, hflag, rfl⟩ := map_eq_some_iff.mp hprune
        have hlength := h.length
        have hretained := h.retained
        obtain ⟨k, hk, hkraw, htail, _⟩ := trimLeadingPartial_spec o.rawTail
        have hraw := o.rawTail_length (by omega)
        have hkept : (trimLeadingPartial o.rawTail).length = o.capBytes.toNat - k := by
          rw [htail, length_drop, hraw]
        have hstart : o.total - (trimLeadingPartial o.rawTail).length =
            o.retainedStart + (o.file.length - o.capBytes.toNat + k) := by
          omega
        refine ⟨⟨?_, h.total, Nat.sub_le _ _, h.visible, rfl⟩, rfl, rfl, rfl, ?_⟩
        · dsimp only
          rw [hstart, htail]
          unfold OutputStore.rawTail
          rw [h.file, drop_drop, drop_drop]
        · intro _ hnot
          have hnonempty : 0 < (trimLeadingPartial o.rawTail).length := by
            apply Nat.pos_of_ne_zero
            intro hempty
            refine hnot ⟨by omega, ?_, eq_nil_of_length_eq_zero hempty⟩
            unfold OutputStore.compactAt at hlarge
            rw [Int.bmod_eq_of_le (by omega) (by omega)] at hlarge
            omega
          by_cases hpos : 0 < o.total - (trimLeadingPartial o.rawTail).length
          · rw [if_pos ⟨hnonempty, hpos⟩] at hflag
            obtain ⟨previous, hprevious, rfl⟩ := map_eq_some_iff.mp hflag
            apply Marks.of_getElem hpos
            obtain ⟨hless, hbyte⟩ := prunedByte_eq (by omega) hprevious
            rw [h.getElem] at hbyte
            rw [← hbyte]
            congr 1
            omega
          · rw [if_neg fun hboth => hpos hboth.2] at hflag
            obtain rfl := some.inj hflag
            simp [Marks, hpos]

/-! ## The visible start -/

structure Refreshes (stream : Bytes) (o o' : OutputStore) : Prop where
  suffix : Suffix stream o'
  capBytes : o'.capBytes = o.capBytes
  ordered : o'.retainedStart ≤ o'.visibleStart
  forward : o.visibleStart ≤ o'.visibleStart
  capped : 0 < o'.capBytes → (o'.total : Int) - o'.visibleStart ≤ o'.capBytes
  marks : Marked stream o → Marked stream o'

theorem clampVisible_spec (h : Suffix stream o) :
    Suffix stream o.clampVisible ∧ o.clampVisible.capBytes = o.capBytes ∧
      o.clampVisible.retainedStart ≤ o.clampVisible.visibleStart ∧
      o.visibleStart ≤ o.clampVisible.visibleStart ∧
      (Marked stream o → Marked stream o.clampVisible) := by
  unfold OutputStore.clampVisible
  split
  · next hle =>
    exact ⟨⟨h.file, h.total, h.retained, h.retained, h.hash⟩, rfl, Nat.le_refl _, hle,
      fun hmarked => ⟨hmarked.retained, hmarked.retained⟩⟩
  · next hgt => exact ⟨h, rfl, Nat.le_of_not_le hgt, Nat.le_refl _, id⟩

theorem refreshVisibleLocked_spec (h : Suffix stream o)
    (hrefresh : o.refreshVisibleLocked = some o') : Refreshes stream o o' := by
  obtain ⟨hclamped, hcap, hordered, hforward, hmarks⟩ := clampVisible_spec h
  unfold OutputStore.refreshVisibleLocked at hrefresh
  dsimp only at hrefresh
  generalize o.clampVisible = c at hrefresh hclamped hcap hordered hforward hmarks
  split at hrefresh
  · next hstays =>
    obtain rfl := some.inj hrefresh
    exact ⟨hclamped, hcap, hordered, hforward, fun hpos => by omega, hmarks⟩
  · next hmoves =>
    split at hrefresh
    · cases hrefresh
    · next previous rest hwindow =>
      obtain ⟨k, _, hk, _, hdropped⟩ := trimLeadingPartial_spec rest
      rw [hdropped] at hrefresh
      obtain rfl := some.inj hrefresh
      have hlength := hclamped.length
      have hwindowLength := congrArg List.length hwindow
      rw [length_take, length_drop, length_cons] at hwindowLength
      -- the byte that is looked at, in the stream
      have hbyte : stream[c.total - c.capBytes.toNat + k - 1]? =
          some (if 0 < k then (rest[k - 1]?).getD previous else previous) := by
        have hat : (previous :: rest)[k]? =
            some (if 0 < k then (rest[k - 1]?).getD previous else previous) := by
          cases k with
          | zero => rfl
          | succ k =>
            rw [getElem?_cons_succ, if_pos (Nat.succ_pos k), Nat.add_sub_cancel,
              getElem?_eq_getElem (by omega)]
            rfl
        rw [← hwindow, getElem?_take_of_lt (by unfold utfMax at hwindowLength ⊢; omega),
          getElem?_drop, hclamped.getElem] at hat
        rw [← hat]
        congr 1
        omega
      refine ⟨⟨hclamped.file, hclamped.total, hclamped.retained, ?_, hclamped.hash⟩, hcap,
        ?_, ?_, ?_, fun hmarked => ⟨(hmarks hmarked).retained, ?_⟩⟩
      · dsimp only
        omega
      · dsimp only
        omega
      · dsimp only
        omega
      · dsimp only
        omega
      · exact Marks.of_getElem (by dsimp only; omega) hbyte

/-! ## Calls -/

variable {δ : Type} [DecidableEq δ] {sha256 : Bytes → δ} {r r' : Retained δ}

/-- A store between two calls. -/
structure Settled (sha256 : Bytes → δ) (stream : Bytes) (r : Retained δ) : Prop where
  suffix : Suffix stream r.store
  ordered : r.store.retainedStart ≤ r.store.visibleStart
  capped : 0 < r.store.capBytes → (r.store.total : Int) - r.store.visibleStart ≤ r.store.capBytes
  outputMeta : r.outputMeta = r.store.outputMetaLocked sha256

/-- What a call does to the store that it starts from. -/
structure Settles (sha256 : Bytes → δ) (stream : Bytes) (o : OutputStore) (r : Retained δ) :
    Prop where
  settled : Settled sha256 stream r
  forward : o.visibleStart ≤ r.store.visibleStart
  marks : Marked stream o → ¬ Drains o.file o.capBytes → Marked stream r.store

theorem settle_spec (h : Suffix stream o) (hsettle : o.settle sha256 = some r) :
    Settles sha256 stream o r := by
  unfold OutputStore.settle at hsettle
  obtain ⟨o₂, hboth, rfl⟩ := map_eq_some_iff.mp hsettle
  obtain ⟨o₁, hprune, hrefresh⟩ := bind_eq_some_iff.mp hboth
  have hpruned := pruneLocked_spec h hprune
  have hrefreshed := refreshVisibleLocked_spec hpruned.suffix hrefresh
  refine ⟨⟨hrefreshed.suffix, hrefreshed.ordered, hrefreshed.capped, rfl⟩, ?_, ?_⟩
  · exact hpruned.visibleStart ▸ hrefreshed.forward
  · intro hmarked hnot
    apply hrefreshed.marks
    refine ⟨hpruned.marks hmarked.retained hnot, ?_⟩
    rw [hpruned.visibleStart, hpruned.visiblePartial]
    exact hmarked.visible

theorem output_append_spec (h : Settled sha256 stream r) (b : Bytes)
    (happend : r.store.append sha256 b = some r') :
    Settles sha256 (stream ++ b) (r.store.appended b) r' :=
  settle_spec (h.suffix.appended b) happend

theorem Marked.appended (h : Marked stream o) (hsuffix : Suffix stream o) (b : Bytes) :
    Marked (stream ++ b) (o.appended b) :=
  ⟨h.retained.append (hsuffix.total ▸ hsuffix.retained) b,
    h.visible.append (hsuffix.total ▸ hsuffix.visible) b⟩

/-- The metadata of a settled store describe it. -/
theorem Settled.readOutputMetaRecord (h : Settled sha256 stream r) :
    OutputMeta.readOutputMetaRecord sha256 (some r.outputMeta) r.store.file =
      some r.outputMeta := by
  have hlength := h.suffix.length
  have hretained := h.suffix.retained
  rw [h.outputMeta]
  unfold OutputMeta.readOutputMetaRecord OutputStore.outputMetaLocked
  dsimp only
  rw [if_neg (by omega), if_neg (by omega), if_neg]
  rintro (hdiffers | hdiffers)
  · omega
  · exact hdiffers (by rw [h.suffix.hash])

theorem Settled.described (h : Settled sha256 stream r) (capBytes : Int) :
    Suffix stream (OutputStore.described r.store.file r.outputMeta capBytes) ∧
      (OutputStore.described r.store.file r.outputMeta capBytes).visibleStart =
        r.store.visibleStart ∧
      (Marked stream r.store →
        Marked stream (OutputStore.described r.store.file r.outputMeta capBytes)) := by
  have hview : ∀ o : OutputStore, o = OutputStore.described r.store.file r.outputMeta capBytes →
      o.file = r.store.file ∧ o.total = r.store.total ∧ o.retainedStart = r.store.retainedStart ∧
        o.retainedStartPartial = r.store.retainedStartPartial ∧
        o.visibleStart = r.store.visibleStart ∧ o.retainedHash = r.store.file ∧
        (o.visiblePartial = r.store.visiblePartial ∨
          r.store.visibleStart = r.store.retainedStart ∧
            o.visiblePartial = r.store.retainedStartPartial) := by
    rintro o rfl
    have hordered := h.ordered
    have hvisible := h.suffix.visible
    rw [h.outputMeta]
    unfold OutputStore.described OutputMeta.outputViewOf OutputStore.outputMetaLocked
    by_cases hbelow : r.store.retainedStart < r.store.visibleStart
    · simp [hbelow, hvisible, OutputMeta.startPartial]
    · have hsame : r.store.visibleStart = r.store.retainedStart := by omega
      simp [hsame, OutputMeta.startPartial]
  obtain ⟨hfile, htotal, hretained, hpartial, hvisible, hhash, hflag⟩ := hview _ rfl
  refine ⟨⟨?_, ?_, ?_, ?_, ?_⟩, hvisible, fun hmarked => ⟨?_, ?_⟩⟩
  · rw [hfile, hretained]
    exact h.suffix.file
  · rw [htotal]
    exact h.suffix.total
  · rw [htotal, hretained]
    exact h.suffix.retained
  · rw [htotal, hvisible]
    exact h.suffix.visible
  · rw [hhash, hfile]
  · rw [hretained, hpartial]
    exact hmarked.retained
  · rw [hvisible]
    rcases hflag with hflag | ⟨hsame, hflag⟩
    · rw [hflag]
      exact hmarked.visible
    · rw [hflag, hsame]
      exact hmarked.retained

/-! ## Runs -/

/-- The call compacts the file to nothing. -/
def Retained.DrainsAt (r : Retained δ) : OutputCall → Prop
  | .append b => Drains (r.store.file ++ b) r.store.capBytes
  | .reopen capBytes => Drains r.store.file capBytes

instance (r : Retained δ) : (call : OutputCall) → Decidable (r.DrainsAt call)
  | .append b => inferInstanceAs (Decidable (Drains (r.store.file ++ b) r.store.capBytes))
  | .reopen capBytes => inferInstanceAs (Decidable (Drains r.store.file capBytes))

/-- One call. -/
theorem Settled.next (h : Settled sha256 stream r) {call : OutputCall}
    (hnext : r.next sha256 call = some r') :
    Settled sha256 (stream ++ call.bytes) r' ∧ r.store.visibleStart ≤ r'.store.visibleStart ∧
      (Marked stream r.store → ¬ r.DrainsAt call → Marked (stream ++ call.bytes) r'.store) := by
  cases call with
  | append b =>
    have hspec := output_append_spec h b hnext
    exact ⟨hspec.settled, hspec.forward,
      fun hmarked hnot => hspec.marks (hmarked.appended h.suffix b) hnot⟩
  | reopen capBytes =>
    have hsettle : (OutputStore.described r.store.file r.outputMeta capBytes).settle sha256 =
        some r' := by
      have hopened : OutputStore.openOutput sha256 r.store.file (some r.outputMeta) capBytes =
        some r' := hnext
      unfold OutputStore.openOutput at hopened
      rw [h.readOutputMetaRecord] at hopened
      exact hopened
    obtain ⟨hsuffix, hvisible, hmarks⟩ := h.described capBytes
    have hspec := settle_spec hsuffix hsettle
    rw [OutputCall.bytes, append_nil]
    exact ⟨hspec.settled, hvisible ▸ hspec.forward,
      fun hmarked hnot => hspec.marks (hmarks hmarked) hnot⟩

theorem Settled.calls (h : Settled sha256 stream r) {calls : List OutputCall}
    (hcalls : calls.foldlM (Retained.next sha256) r = some r') :
    Settled sha256 (stream ++ calls.flatMap OutputCall.bytes) r' ∧
      r.store.visibleStart ≤ r'.store.visibleStart := by
  induction calls generalizing stream r with
  | nil =>
    obtain rfl := some.inj hcalls
    rw [flatMap_nil, append_nil]
    exact ⟨h, Nat.le_refl _⟩
  | cons call calls ih =>
    rw [foldlM_cons] at hcalls
    obtain ⟨r₁, hnext, hrest⟩ := bind_eq_some_iff.mp hcalls
    obtain ⟨hsettled, hforward, _⟩ := h.next hnext
    obtain ⟨hsettled', hforward'⟩ := ih hsettled hrest
    rw [flatMap_cons, ← append_assoc]
    exact ⟨hsettled', Nat.le_trans hforward hforward'⟩

theorem Settled.calls_marked (h : Settled sha256 stream r) (hmarked : Marked stream r.store)
    {calls : List OutputCall} (hcalls : calls.foldlM (Retained.next sha256) r = some r')
    (hkept : ∀ before call after r₁, calls = before ++ call :: after →
      before.foldlM (Retained.next sha256) r = some r₁ → ¬ r₁.DrainsAt call) :
    Marked (stream ++ calls.flatMap OutputCall.bytes) r'.store := by
  induction calls generalizing stream r with
  | nil =>
    obtain rfl := some.inj hcalls
    rw [flatMap_nil, append_nil]
    exact hmarked
  | cons call calls ih =>
    rw [foldlM_cons] at hcalls
    obtain ⟨r₁, hnext, hrest⟩ := bind_eq_some_iff.mp hcalls
    obtain ⟨hsettled, _, hmarks⟩ := h.next hnext
    rw [flatMap_cons, ← append_assoc]
    refine ih hsettled (hmarks hmarked (hkept [] call calls r rfl rfl)) hrest ?_
    intro before call' after r₂ hsplit hbefore
    refine hkept (call :: before) call' after r₂ (by rw [hsplit]; rfl) ?_
    rw [foldlM_cons, hnext]
    exact hbefore

theorem openOutput_fresh {capBytes : Int}
    (h : OutputStore.openOutput sha256 [] none capBytes = some r) :
    Settled sha256 [] r ∧ Marked [] r.store := by
  have hspec : Settles sha256 [] (OutputStore.described [] ⟨0, 0, none, none, none, none⟩ capBytes)
      r := settle_spec ⟨rfl, rfl, Nat.le_refl _, Nat.le_refl _, rfl⟩ h
  refine ⟨hspec.settled, hspec.marks ⟨?_, ?_⟩ ?_⟩
  · exact ⟨fun h => (nomatch h), fun h => absurd h.1 (Nat.lt_irrefl 0)⟩
  · exact ⟨fun h => (nomatch h), fun h => absurd h.1 (Nat.lt_irrefl 0)⟩
  · rintro ⟨hpos, hsmall, _⟩
    have hpos' : 0 < capBytes := hpos
    have hsmall' : 2 * capBytes < 0 := hsmall
    omega

/-! ## Success -/

theorem pruneLocked_succeeds (h : Suffix stream o) (hcap : o.capBytes < 2 ^ 62) :
    ∃ o', o.pruneLocked = some o' := by
  unfold OutputStore.pruneLocked
  split
  · exact ⟨_, rfl⟩
  · split
    · exact ⟨_, rfl⟩
    · next hpos hlarge =>
      unfold OutputStore.compactAt at hlarge
      rw [Int.bmod_eq_of_le (by omega) (by omega)] at hlarge
      rw [if_neg (by omega)]
      dsimp only
      split
      · obtain ⟨k, _, hk, _, hdropped⟩ := trimLeadingPartial_spec o.rawTail
        have hraw := o.rawTail_length (by omega)
        unfold OutputStore.prunedByte
        dsimp only
        rw [hdropped]
        split
        · rw [getElem?_eq_getElem (by omega)]
          exact ⟨_, rfl⟩
        · rw [if_neg (by omega), getElem?_eq_getElem (by omega)]
          exact ⟨_, rfl⟩
      · exact ⟨_, rfl⟩

theorem refreshVisibleLocked_succeeds (h : Suffix stream o) :
    ∃ o', o.refreshVisibleLocked = some o' := by
  obtain ⟨hclamped, _, hordered, _⟩ := clampVisible_spec h
  have hlength := hclamped.length
  have hretained := hclamped.retained
  unfold OutputStore.refreshVisibleLocked
  dsimp only
  generalize o.clampVisible = c at hclamped hordered hlength hretained
  split
  · exact ⟨_, rfl⟩
  · split
    · next hempty =>
      have hzero := congrArg List.length hempty
      rw [length_take, length_drop, length_nil] at hzero
      unfold utfMax at hzero
      omega
    · exact ⟨_, rfl⟩

/-- With a cap that can be doubled, every call on a settled store succeeds. -/
theorem settle_succeeds (h : Suffix stream o) (hcap : o.capBytes < 2 ^ 62) :
    ∃ r, o.settle sha256 = some r := by
  obtain ⟨o₁, hprune⟩ := pruneLocked_succeeds h hcap
  obtain ⟨o₂, hrefresh⟩ := refreshVisibleLocked_succeeds (pruneLocked_spec h hprune).suffix
  unfold OutputStore.settle
  rw [hprune]
  refine ⟨⟨o₂, o₂.outputMetaLocked sha256⟩, ?_⟩
  show (o₁.refreshVisibleLocked).map _ = _
  rw [hrefresh]
  rfl

/-! ## What stays exact -/

/-- The offsets of an output that was opened on a fresh path are exact after any calls, and where
    no call compacted it to nothing, it says whether a line continues at the visible start. -/
theorem output_retained {capBytes : Int} {calls : List OutputCall}
    (h : runOutput sha256 capBytes calls = some r) :
    r.store.file = (calls.flatMap OutputCall.bytes).drop r.store.retainedStart ∧
      r.store.total = (calls.flatMap OutputCall.bytes).length ∧
      r.store.retainedStart ≤ r.store.visibleStart ∧ r.store.visibleStart ≤ r.store.total ∧
      (0 < r.store.capBytes → (r.store.total : Int) - r.store.visibleStart ≤ r.store.capBytes) ∧
      (∀ (later : List OutputCall) (r' : Retained δ),
        later.foldlM (Retained.next sha256) r = some r' →
        r.store.visibleStart ≤ r'.store.visibleStart) ∧
      ((∀ before call after r₁, calls = before ++ call :: after →
          runOutput sha256 capBytes before = some r₁ → ¬ r₁.DrainsAt call) →
        0 < r.store.visibleStart → r.store.visibleStart < r.store.total →
        (r.store.visiblePartial = true ↔
          (calls.flatMap OutputCall.bytes)[r.store.visibleStart - 1]? ≠ some newline)) := by
  obtain ⟨r₀, hopen, hcalls⟩ := bind_eq_some_iff.mp h
  obtain ⟨hsettled₀, hmarked₀⟩ := openOutput_fresh hopen
  obtain ⟨hsettled, _⟩ := hsettled₀.calls hcalls
  rw [nil_append] at hsettled
  refine ⟨hsettled.suffix.file, hsettled.suffix.total, hsettled.ordered, hsettled.suffix.visible,
    hsettled.capped, fun later r' hlater => (hsettled.calls hlater).2, fun hkept hpos _ => ?_⟩
  have hmarked := hsettled₀.calls_marked hmarked₀ hcalls fun before call after r₁ hsplit hbefore =>
    hkept before call after r₁ hsplit (bind_eq_some_iff.mpr ⟨r₀, hopen, hbefore⟩)
  rw [nil_append] at hmarked
  have hvisible := hmarked.visible
  unfold Marks at hvisible
  rw [hvisible]
  exact ⟨fun hboth => hboth.2, fun hne => ⟨hpos, hne⟩⟩

/-- Two lines, a reopen with a smaller cap, and the rest of a line. -/
def cutLine : List OutputCall := [.append [0x61, 0x0a, 0x62], .reopen 2, .append [0x63, 0xc3, 0xa9]]

theorem cutLine_retained : ∃ r, runOutput id 8 cutLine = some r ∧ r.store.visibleStart = 4 ∧
    (r.store.visiblePartial = true ↔
      (cutLine.flatMap OutputCall.bytes)[r.store.visibleStart - 1]? ≠ some newline) := by
  refine ⟨_, rfl, by decide, ?_⟩
  refine (@output_retained Bytes _ id _ 8 cutLine rfl).2.2.2.2.2.2 ?_ (by decide) (by decide)
  intro before call after r₁ hsplit hbefore
  unfold cutLine at hsplit
  obtain _ | ⟨_, _ | ⟨_, _ | ⟨_, before⟩⟩⟩ := before
  · cases hsplit
    obtain rfl := some.inj hbefore
    decide
  · cases hsplit
    obtain rfl := some.inj hbefore
    decide
  · cases hsplit
    obtain rfl := some.inj hbefore
    decide
  · have hlength := congrArg List.length hsplit
    simp at hlength

/-- Three continuation bytes under a cap of one are compacted to nothing; the next byte is
    visible, continues their line and is not marked so. -/
theorem drained_unmarked : ∃ r,
    runOutput id 1 [.append [0x80, 0x80, 0x80], .append [0x61]] = some r ∧
      0 < r.store.visibleStart ∧ r.store.visibleStart < r.store.total ∧
      ¬ (r.store.visiblePartial = true ↔
        ([0x80, 0x80, 0x80, 0x61] : Bytes)[r.store.visibleStart - 1]? ≠ some newline) := by
  exact ⟨_, rfl, by decide, by decide, by decide⟩

end Evener.Jobstore
