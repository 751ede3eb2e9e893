/-
  Paging through retained output: forward and backward by raw bytes, and backward at rune starts.

  Offsets count the bytes of the lifetime stream, as 64-bit integers that no total reaches. A read
  past its file stops with an error; other errors of the file system are left out of the reads.
-/
import Evener.Jobstore.OutputCrash

namespace Evener.Jobstore

open Evener.Lib List Option

/-! ## Reads -/

/-- The errors of a read, with the numbers that their texts name. -/
inductive OutputReadError where
  | invalidLimit (maxBytes : Int)
  | invalidOffset (numbers : List (String × Int))
  | outputPruned (numbers : List (String × Int))
  /-- "retained output coordinates do not match output file" -/
  | coordinates
  | negativeSeek (offset : Int)
  /-- `make` panics. -/
  | negativeLength (length : Int)
  | unexpectedEOF
deriving DecidableEq

structure OutputWindowSnapshot where
  content : Bytes := []
  start : Int := 0
  stop : Int := 0
  totalBytes : Int := 0
  retainedStart : Int := 0
  retainedStartPartial : Bool := false
  truncated : Bool := false
deriving DecidableEq

/-- `Seek` to an offset, `make` a buffer and `ReadFull` it. -/
def readFileAt (file : Bytes) (offset length : Int) : Except OutputReadError Bytes :=
  if offset < 0 then throw (.negativeSeek offset)
  else if length < 0 then throw (.negativeLength length)
  else
    let buf := (file.drop offset.toNat).take length.toNat
    if buf.length < length.toNat then throw .unexpectedEOF else pure buf

/-- The window `[start, stop)` of the lifetime offsets that a paged read covers. -/
def windowBounds (beforeBytes maxBytes total earliest : Int) : Int × Int :=
  let stop := if 0 < beforeBytes ∧ beforeBytes < total then beforeBytes else total
  let stop := if stop < earliest then earliest else stop
  (max (stop - maxBytes) earliest, stop)

def outputPageBounds (beforeBytes : Option Int) (maxBytes totalBytes retainedStart : Int) :
    Except OutputReadError (Int × Int) :=
  if maxBytes ≤ 0 then throw (.invalidOffset [("maxBytes", maxBytes)])
  else
    let stop := beforeBytes.getD totalBytes
    if stop < 0 ∨ totalBytes < stop then
      throw (.invalidOffset [("beforeBytes", stop), ("total", totalBytes)])
    else if stop < retainedStart then
      throw (.outputPruned [("beforeBytes", stop), ("first_available", retainedStart)])
    else
      pure (if maxBytes < stop - retainedStart then stop - maxBytes else retainedStart, stop)

def addWindowLimit (offset maxBytes total : Int) : Int :=
  if maxBytes = 0 ∨ offset = total then offset
  else if total - offset < maxBytes then total
  else offset + maxBytes

namespace OutputStore

variable (o : OutputStore)

/-- Where lifetime offsets are in the file. -/
def fileRange (start stop : Int) : Int × Int := (start - o.retainedStart, stop - o.retainedStart)

/-- The file range that `window` reads: its end is clipped to the file. -/
def windowRange (beforeBytes maxBytes : Int) : Int × Int :=
  let bounds := windowBounds beforeBytes maxBytes o.total o.visibleStart
  let range := o.fileRange bounds.1 bounds.2
  (range.1, min range.2 o.file.length)

/-- The bytes of a window, `start` after the cut at a rune, `stop` and the total. -/
def window (beforeBytes maxBytes : Int) : Except OutputReadError (Bytes × Int × Int × Int) :=
  if maxBytes < 0 then throw (.invalidLimit maxBytes)
  else
    let bounds := windowBounds beforeBytes maxBytes o.total o.visibleStart
    let range := o.windowRange beforeBytes maxBytes
    readFileAt o.file range.1 (range.2 - range.1) >>= fun buf =>
      if o.visibleStart < bounds.1 then
        let trimmed := trimLeadingPartial buf
        pure (trimmed, bounds.1 + (buf.length - trimmed.length), bounds.2, o.total)
      else pure (buf, bounds.1, bounds.2, o.total)

/-- What a snapshot says of the store before a range is read. -/
def windowSnapshot (start stop : Int) : OutputWindowSnapshot :=
  { start := start
    stop := stop
    totalBytes := o.total
    retainedStart := o.visibleStart
    retainedStartPartial := o.visiblePartial }

def readRangeLocked (offset stop : Int) : OutputWindowSnapshot × Option OutputReadError :=
  let snapshot :=
    { o.windowSnapshot offset stop with
      truncated := 0 < o.visibleStart || o.visibleStart < offset || stop < o.total }
  if stop = offset then (snapshot, none)
  else
    let range := o.fileRange offset stop
    if range.1 < 0 ∨ range.2 < range.1 ∨ (o.file.length : Int) < range.2 then ({}, some .coordinates)
    else
      match readFileAt o.file range.1 (range.2 - range.1) with
      | .ok content => ({ snapshot with content := content }, none)
      | .error e => ({}, some e)

def readWindow (offset maxBytes : Int) : OutputWindowSnapshot × Option OutputReadError :=
  if maxBytes < 0 then ({}, some (.invalidLimit maxBytes))
  else if offset < 0 then ({}, some (.invalidOffset [("offset", offset)]))
  else if offset < o.visibleStart then
    (o.windowSnapshot offset offset,
      some (.outputPruned [("offset", offset), ("first_available", o.visibleStart)]))
  else if o.total < offset then
    (o.windowSnapshot offset offset,
      some (.invalidOffset [("offset", offset), ("total", o.total)]))
  else o.readRangeLocked offset (addWindowLimit offset maxBytes o.total)

def readPage (beforeBytes : Option Int) (maxBytes : Int) :
    OutputWindowSnapshot × Option OutputReadError :=
  match outputPageBounds beforeBytes maxBytes o.total o.visibleStart with
  | .error e => (o.windowSnapshot 0 0, some e)
  | .ok bounds => o.readRangeLocked bounds.1 bounds.2

/-- The bytes that readers may see. -/
def visibleBytes : Bytes := o.file.drop (o.visibleStart - o.retainedStart)

/-! ## Paging -/

/-- Every window from `offset` on, each from the end of the one before it. -/
def followWindows (maxBytes : Int) : Nat → Int → Option Bytes
  | 0, _ => none
  | fuel + 1, offset =>
    match o.readWindow offset maxBytes with
    | (_, some _) => none
    | (snapshot, none) =>
      if snapshot.totalBytes ≤ snapshot.stop then some snapshot.content
      else (followWindows maxBytes fuel snapshot.stop).map (snapshot.content ++ ·)

/-- Every page up to `beforeBytes`, each up to the start of the one after it. -/
def followPages (maxBytes : Int) : Nat → Option Int → Option Bytes
  | 0, _ => none
  | fuel + 1, beforeBytes =>
    match o.readPage beforeBytes maxBytes with
    | (_, some _) => none
    | (snapshot, none) =>
      if snapshot.start ≤ snapshot.retainedStart then some snapshot.content
      else (followPages maxBytes fuel (some snapshot.start)).map (· ++ snapshot.content)

/-- The same by windows that start at a rune. -/
def followBack (maxBytes : Int) : Nat → Int → Option Bytes
  | 0, _ => none
  | fuel + 1, beforeBytes =>
    match o.window beforeBytes maxBytes with
    | .error _ => none
    | .ok (buf, start, _, _) =>
      if start ≤ o.visibleStart then some buf
      else (followBack maxBytes fuel start).map (· ++ buf)

end OutputStore

/-! ## Appends that fail -/

/-- Where an append ends: after `n` bytes of its write, before its compaction replaces the output,
    right after that, at the visible boundary, or with the metadata, written or not. -/
inductive AppendEnd where
  | writing (n : Nat)
  | pruning
  | replaced
  | refreshing
  | persisting
deriving DecidableEq

/-- The store after an append that ends there; `none` where it cannot end there. -/
def OutputStore.appendUpTo (o : OutputStore) (b : Bytes) : AppendEnd → Option OutputStore
  | .writing n => some (o.appended (b.take n))
  | .pruning => some (o.appended b)
  | .replaced => if (o.appended b).compacts then (o.appended b).pruneLocked else none
  | .refreshing => (o.appended b).pruneLocked.map clampVisible
  | .persisting => (o.appended b).pruneLocked >>= refreshVisibleLocked

variable {δ : Type} [DecidableEq δ]

/-- The stores of one path, by where the appends since it was opened have ended. -/
inductive OutputReached (sha256 : Bytes → δ) : List AppendEnd → OutputStore → Prop where
  | created {capBytes : Int} {r : Retained δ}
      (h : OutputStore.createOutput sha256 capBytes = some r) : OutputReached sha256 [] r.store
  | opened {files : OutputFiles δ} {capBytes : Int} {r : Retained δ}
      (h : openOutputFiles sha256 files capBytes = some r) : OutputReached sha256 [] r.store
  | appended {ends : List AppendEnd} {o o' : OutputStore} {b : Bytes} {e : AppendEnd}
      (h : OutputReached sha256 ends o) (happend : o.appendUpTo b e = some o') :
      OutputReached sha256 (e :: ends) o'

/-! ## Ranges of a store -/

namespace OutputStore

variable {o : OutputStore}

/-- The file ends where the stream does. -/
structure Placed (o : OutputStore) : Prop where
  length : o.retainedStart + o.file.length = o.total
  visible : o.visibleStart ≤ o.total

/-- The file has the range. -/
def InFile (o : OutputStore) (range : Int × Int) : Prop :=
  0 ≤ range.1 ∧ range.1 ≤ range.2 ∧ range.2 ≤ o.file.length

/-- The bytes with the lifetime offsets `[start, stop)`. -/
def bytesAt (o : OutputStore) (start stop : Int) : Bytes :=
  (o.file.drop (start - o.retainedStart).toNat).take (stop - start).toNat

variable {a b total n : Int}

theorem bytesAt_append {c : Int} (ha : (o.retainedStart : Int) ≤ a) (hab : a ≤ b) (hbc : b ≤ c) :
    o.bytesAt a b ++ o.bytesAt b c = o.bytesAt a c := by
  unfold bytesAt
  have hdrop : (b - o.retainedStart).toNat = (a - o.retainedStart).toNat + (b - a).toNat := by
    omega
  have htake : (c - a).toNat = (b - a).toNat + (c - b).toNat := by omega
  rw [hdrop, htake, take_add, drop_drop]

theorem Placed.length_bytesAt (h : o.Placed) (ha : (o.retainedStart : Int) ≤ a) (hab : a ≤ b)
    (hb : b ≤ o.total) : (o.bytesAt a b).length = (b - a).toNat := by
  have hlength := h.length
  unfold bytesAt
  rw [length_take, length_drop]
  omega

/-- What is left of a range without its first bytes. -/
theorem bytesAt_drop (ha : (o.retainedStart : Int) ≤ a) (k : Nat) :
    (o.bytesAt a b).drop k = o.bytesAt (a + k) b := by
  unfold bytesAt
  rw [drop_take, drop_drop]
  congr 2 <;> omega

theorem Placed.visibleBytes_eq (h : o.Placed) (hordered : o.retainedStart ≤ o.visibleStart) :
    o.visibleBytes = o.bytesAt o.visibleStart o.total := by
  have hlength := h.length
  unfold visibleBytes bytesAt
  rw [take_of_length_le]
  · congr 1
    omega
  · rw [length_drop]
    omega

theorem Placed.fileRange_inFile (h : o.Placed) (ha : (o.retainedStart : Int) ≤ a) (hab : a ≤ b)
    (hb : b ≤ o.total) : o.InFile (o.fileRange a b) := by
  have hlength := h.length
  unfold InFile fileRange
  omega

theorem Placed.readFileAt_eq (h : o.Placed) (ha : (o.retainedStart : Int) ≤ a) (hab : a ≤ b)
    (hb : b ≤ o.total) :
    readFileAt o.file (a - o.retainedStart) (b - o.retainedStart - (a - o.retainedStart)) =
      .ok (o.bytesAt a b) := by
  have hsize : b - o.retainedStart - (a - o.retainedStart) = b - a := by omega
  have hbytes := h.length_bytesAt ha hab hb
  unfold readFileAt
  rw [hsize, if_neg (by omega), if_neg (by omega)]
  change (if (o.bytesAt a b).length < _ then _ else _) = _
  rw [hbytes, if_neg (Nat.lt_irrefl _)]
  rfl

/-- A range of the file is read as it is. -/
theorem Placed.readRangeLocked_spec (h : o.Placed) (ha : (o.retainedStart : Int) ≤ a) (hab : a ≤ b)
    (hb : b ≤ o.total) :
    ∃ snapshot, o.readRangeLocked a b = (snapshot, none) ∧ snapshot.content = o.bytesAt a b ∧
      snapshot.start = a ∧ snapshot.stop = b ∧ snapshot.totalBytes = o.total ∧
      snapshot.retainedStart = o.visibleStart := by
  have hin := h.fileRange_inFile ha hab hb
  unfold InFile at hin
  unfold readRangeLocked
  by_cases hsame : b = a
  · rw [if_pos hsame]
    refine ⟨_, rfl, ?_, rfl, rfl, rfl, rfl⟩
    rw [hsame]
    simp [bytesAt, windowSnapshot]
  · rw [if_neg hsame, if_neg (by omega)]
    have hread := h.readFileAt_eq ha hab hb
    unfold fileRange
    rw [hread]
    exact ⟨_, rfl, rfl, rfl, rfl, rfl, rfl⟩

/-- A range from before the file is refused. -/
theorem readRangeLocked_refused (ha : a < o.retainedStart) (hne : b ≠ a) :
    o.readRangeLocked a b = ({}, some .coordinates) := by
  unfold readRangeLocked fileRange
  rw [if_neg hne, if_pos (by omega)]

/-! ## Forward -/

theorem addWindowLimit_spec {offset maxBytes : Int} (hmax : 0 ≤ maxBytes) (hoffset : offset ≤ total) :
    offset ≤ addWindowLimit offset maxBytes total ∧ addWindowLimit offset maxBytes total ≤ total ∧
      (0 < maxBytes → offset < total → offset < addWindowLimit offset maxBytes total) := by
  unfold addWindowLimit
  split
  · omega
  · split <;> omega

theorem readWindow_eq {offset : Int} (hvisible : (o.visibleStart : Int) ≤ offset)
    (hoffset : offset ≤ o.total) {maxBytes : Int} (hmax : 0 ≤ maxBytes) :
    o.readWindow offset maxBytes =
      o.readRangeLocked offset (addWindowLimit offset maxBytes o.total) := by
  unfold readWindow
  rw [if_neg (by omega), if_neg (by omega), if_neg (by omega), if_neg (by omega)]

theorem Placed.followWindows_eq (h : o.Placed) (hordered : o.retainedStart ≤ o.visibleStart)
    (hn : 0 < n) (fuel : Nat) (ha : (o.visibleStart : Int) ≤ a) (htotal : a ≤ o.total)
    (hfuel : o.total - a < fuel) : o.followWindows n fuel a = some (o.bytesAt a o.total) := by
  induction fuel generalizing a with
  | zero => omega
  | succ fuel ih =>
    obtain ⟨hfrom, hto, hmoves⟩ := addWindowLimit_spec (by omega : 0 ≤ n) htotal
    obtain ⟨snapshot, hread, hcontent, _, hstop, hbytes, _⟩ :=
      h.readRangeLocked_spec (by omega) hfrom hto
    unfold followWindows
    rw [readWindow_eq ha htotal (by omega), hread]
    dsimp only
    rw [hcontent, hstop, hbytes]
    split
    · next hlast =>
      have hend : addWindowLimit a n o.total = o.total := by omega
      rw [hend]
    · next hmore =>
      rw [ih (by omega) hto (by omega), map_some,
        bytesAt_append (by omega) hfrom hto]

/-! ## Backward -/

theorem outputPageBounds_spec {beforeBytes : Option Int} {visible : Int} {bounds : Int × Int}
    (h : outputPageBounds beforeBytes n total visible = .ok bounds) :
    0 < n ∧ bounds.2 = beforeBytes.getD total ∧ visible ≤ bounds.1 ∧ bounds.1 ≤ bounds.2 ∧
      bounds.2 ≤ total ∧ (visible < bounds.2 → bounds.1 < bounds.2) := by
  unfold outputPageBounds at h
  dsimp only at h
  split at h
  · cases h
  · split at h
    · cases h
    · split at h
      · cases h
      · cases h
        split <;> omega

theorem outputPageBounds_ok {beforeBytes : Option Int} {visible : Nat} (hn : 0 < n)
    (hfrom : (visible : Int) ≤ beforeBytes.getD total) (hto : beforeBytes.getD total ≤ total) :
    ∃ bounds, outputPageBounds beforeBytes n total visible = .ok bounds := by
  unfold outputPageBounds
  rw [if_neg (by omega), if_neg (by omega), if_neg (by omega)]
  exact ⟨_, rfl⟩

theorem Placed.followPages_eq (h : o.Placed) (hordered : o.retainedStart ≤ o.visibleStart)
    (hn : 0 < n) (fuel : Nat) {before : Option Int}
    (hfrom : (o.visibleStart : Int) ≤ before.getD o.total) (hto : before.getD o.total ≤ o.total)
    (hfuel : before.getD o.total - o.visibleStart < fuel) :
    o.followPages n fuel before = some (o.bytesAt o.visibleStart (before.getD o.total)) := by
  induction fuel generalizing before with
  | zero => omega
  | succ fuel ih =>
    obtain ⟨bounds, hbounds⟩ := outputPageBounds_ok hn hfrom hto
    obtain ⟨_, hstop, hvisible, hle, htotal, hmoves⟩ := outputPageBounds_spec hbounds
    obtain ⟨snapshot, hread, hcontent, hstart, _, _, hretained⟩ :=
      h.readRangeLocked_spec (by omega) hle htotal
    unfold followPages readPage
    rw [hbounds]
    dsimp only
    rw [hread]
    dsimp only
    rw [hcontent, hstart, hretained, hstop]
    split
    · next hlast =>
      have hfirst : bounds.1 = o.visibleStart := by omega
      rw [hfirst]
    · next hmore =>
      have hrest : o.followPages n fuel (some bounds.1) =
          some (o.bytesAt o.visibleStart bounds.1) :=
        ih hvisible (by dsimp only [Option.getD]; omega) (by dsimp only [Option.getD]; omega)
      rw [hrest, map_some, bytesAt_append (by omega) hvisible (by omega)]

/-! ## Backward, from a rune -/

theorem windowBounds_spec (before : Int) (hn : 0 ≤ n) {total visible : Nat}
    (hvisible : visible ≤ total) :
    (visible : Int) ≤ (windowBounds before n total visible).1 ∧
      (windowBounds before n total visible).1 ≤ (windowBounds before n total visible).2 ∧
      (windowBounds before n total visible).2 ≤ total ∧
      ((visible : Int) < (windowBounds before n total visible).1 →
        (windowBounds before n total visible).1 = (windowBounds before n total visible).2 - n) ∧
      ((visible : Int) < before → before ≤ total →
        (windowBounds before n total visible).2 = before) := by
  unfold windowBounds
  dsimp only
  split <;> split <;> omega

theorem Placed.windowRange_eq (h : o.Placed) (before : Int) (hn : 0 ≤ n) :
    o.windowRange before n =
      o.fileRange (windowBounds before n o.total o.visibleStart).1
        (windowBounds before n o.total o.visibleStart).2 := by
  have hlength := h.length
  obtain ⟨_, _, htotal, _⟩ := windowBounds_spec before hn h.visible
  unfold windowRange fileRange
  dsimp only
  rw [Int.min_eq_left (by omega)]

/-- A window is the end of a range: at most three bytes are cut from its start, and none where it
    starts with the first visible byte. -/
theorem Placed.window_spec (h : o.Placed) (hordered : o.retainedStart ≤ o.visibleStart)
    (before : Int) (hn : 4 ≤ n) :
    ∃ start stop, o.window before n = .ok (o.bytesAt start stop, start, stop, o.total) ∧
      stop = (windowBounds before n o.total o.visibleStart).2 ∧
      (o.visibleStart : Int) ≤ start ∧ start ≤ stop ∧
      ((o.visibleStart : Int) < stop → start < stop) := by
  obtain ⟨hvisible, hle, htotal, hwide, _⟩ :=
    windowBounds_spec before (by omega : 0 ≤ n) h.visible
  unfold window
  rw [if_neg (by omega)]
  rw [h.windowRange_eq before (by omega)]
  unfold fileRange
  dsimp only
  rw [h.readFileAt_eq (by omega) hle htotal]
  generalize (windowBounds before n o.total o.visibleStart).1 = start at *
  generalize (windowBounds before n o.total o.visibleStart).2 = stop at *
  dsimp only [bind, Except.bind]
  by_cases hcut : (o.visibleStart : Int) < start
  · rw [if_pos hcut]
    obtain ⟨k, hk, hshort, htrim, _⟩ := trimLeadingPartial_spec (o.bytesAt start stop)
    rw [htrim]
    have hmoved : start + (((o.bytesAt start stop).length : Int) -
        (((o.bytesAt start stop).drop k).length : Int)) = start + k := by
      rw [length_drop]
      omega
    rw [hmoved, bytesAt_drop (by omega)]
    exact ⟨start + k, stop, rfl, rfl, by omega, by omega, fun _ => by omega⟩
  · rw [if_neg hcut]
    exact ⟨start, stop, rfl, rfl, hvisible, hle, fun hless => by omega⟩

theorem Placed.followBack_eq (h : o.Placed) (hordered : o.retainedStart ≤ o.visibleStart)
    (hn : 4 ≤ n) (fuel : Nat) (before : Int)
    (hfuel : (windowBounds before n o.total o.visibleStart).2 - o.visibleStart < fuel) :
    o.followBack n fuel before =
      some (o.bytesAt o.visibleStart (windowBounds before n o.total o.visibleStart).2) := by
  induction fuel generalizing before with
  | zero =>
    obtain ⟨hvisible, hle, _⟩ := windowBounds_spec before (by omega : 0 ≤ n) h.visible
    omega
  | succ fuel ih =>
    obtain ⟨start, stop, hwindow, hstop, hvisible, hle, hmoves⟩ := h.window_spec hordered before hn
    obtain ⟨_, _, htotal, _⟩ := windowBounds_spec before (by omega : 0 ≤ n) h.visible
    unfold followBack
    rw [hwindow]
    dsimp only
    rw [← hstop] at hfuel htotal ⊢
    split
    · next hlast =>
      have hfirst : start = o.visibleStart := by omega
      rw [hfirst]
    · next hmore =>
      obtain ⟨_, _, _, _, hnext⟩ := windowBounds_spec start (by omega : 0 ≤ n) h.visible
      have hbefore := hnext (by omega) (by omega)
      rw [ih start (by omega), hbefore, map_some, bytesAt_append (by omega) hvisible hle]

/-- Paging with pages of `n` bytes gives the visible bytes, and no read leaves the file. -/
structure PagedBy (o : OutputStore) (n : Int) : Prop where
  windows : ∀ fuel : Nat, (o.total : Int) - o.visibleStart < fuel →
    o.followWindows n fuel o.visibleStart = some o.visibleBytes
  pages : ∀ fuel : Nat, (o.total : Int) - o.visibleStart < fuel →
    o.followPages n fuel none = some o.visibleBytes
  back : 4 ≤ n → ∀ fuel : Nat, (o.total : Int) - o.visibleStart < fuel →
    o.followBack n fuel 0 = some o.visibleBytes
  /-- A window that has visible bytes before its end starts before its end. -/
  progress : 4 ≤ n → ∀ before : Int, ∃ buf start stop,
    o.window before n = .ok (buf, start, stop, o.total) ∧ (buf.length : Int) = stop - start ∧
      ((o.visibleStart : Int) < before → before ≤ o.total → stop = before) ∧
      ((o.visibleStart : Int) < stop → start < stop)
  inWindow : ∀ before maxBytes : Int, 0 ≤ maxBytes → o.InFile (o.windowRange before maxBytes)
  inRead : ∀ offset maxBytes : Int, 0 ≤ maxBytes → (o.visibleStart : Int) ≤ offset →
    offset ≤ o.total → o.InFile (o.fileRange offset (addWindowLimit offset maxBytes o.total))
  inPage : ∀ (before : Option Int) (maxBytes : Int) (bounds : Int × Int),
    outputPageBounds before maxBytes o.total o.visibleStart = .ok bounds →
      o.InFile (o.fileRange bounds.1 bounds.2)

theorem Placed.pagedBy (h : o.Placed) (hordered : o.retainedStart ≤ o.visibleStart) (hn : 0 < n) :
    o.PagedBy n where
  windows fuel hfuel := by
    have hvisible := h.visible
    rw [h.visibleBytes_eq hordered]
    exact h.followWindows_eq hordered hn fuel (Int.le_refl _) (by omega) hfuel
  pages fuel hfuel := by
    have hvisible := h.visible
    rw [h.visibleBytes_eq hordered]
    apply h.followPages_eq hordered hn fuel
    · dsimp only [Option.getD]
      omega
    · exact Int.le_refl _
    · exact hfuel
  back hfour fuel hfuel := by
    have hvisible := h.visible
    have htail : (windowBounds 0 n o.total o.visibleStart).2 = o.total := by
      unfold windowBounds
      dsimp only
      rw [if_neg (by omega), if_neg (by omega)]
    have hback := h.followBack_eq hordered hfour fuel 0 (by rw [htail]; exact hfuel)
    rw [h.visibleBytes_eq hordered, hback, htail]
  progress hfour before := by
    obtain ⟨start, stop, hwindow, hstop, hvisible, hle, hmoves⟩ := h.window_spec hordered before hfour
    obtain ⟨_, _, htotal, _, hbefore⟩ := windowBounds_spec before (by omega : 0 ≤ n) h.visible
    rw [← hstop] at htotal hbefore
    refine ⟨_, start, stop, hwindow, ?_, hbefore, hmoves⟩
    rw [h.length_bytesAt (by omega) hle htotal]
    omega
  inWindow before maxBytes hmax := by
    obtain ⟨hvisible, hle, htotal, _⟩ := windowBounds_spec before hmax h.visible
    rw [h.windowRange_eq before hmax]
    exact h.fileRange_inFile (by omega) hle htotal
  inRead offset maxBytes hmax hvisible htotal := by
    obtain ⟨hfrom, hto, _⟩ := addWindowLimit_spec hmax htotal
    exact h.fileRange_inFile (by omega) hfrom hto
  inPage before maxBytes bounds hbounds := by
    obtain ⟨_, _, hvisible, hle, htotal, _⟩ := outputPageBounds_spec hbounds
    exact h.fileRange_inFile (by omega) hle htotal

/-- The first window fails where the visible bytes begin before the file. -/
theorem followWindows_evicted (hevicted : o.visibleStart < o.retainedStart)
    (hretained : o.retainedStart ≤ o.total) (hn : 0 < n) (fuel : Nat) :
    o.followWindows n fuel o.visibleStart = none := by
  cases fuel with
  | zero => rfl
  | succ fuel =>
    have hbefore : (o.visibleStart : Int) < o.total := by omega
    have hless := (addWindowLimit_spec (by omega : 0 ≤ n) (Int.le_of_lt hbefore)).2.2 hn hbefore
    unfold followWindows
    rw [readWindow_eq (Int.le_refl _) (by omega) (by omega),
      readRangeLocked_refused (by omega) (by omega)]

end OutputStore

/-! ## Stores of a path -/

variable {sha256 : Bytes → δ}

open OutputStore

theorem Suffix.placed {stream : Bytes} {o : OutputStore} (h : Suffix stream o) : o.Placed where
  length := by
    have hlength := h.length
    have hretained := h.retained
    omega
  visible := h.visible

theorem readOutputMetaRecord_bytes {finalMeta : Option (OutputMeta δ)} {file : Bytes}
    {outputMeta : OutputMeta δ}
    (h : OutputMeta.readOutputMetaRecord sha256 finalMeta file = some outputMeta) :
    outputMeta.retainedStart + file.length = outputMeta.totalBytes := by
  unfold OutputMeta.readOutputMetaRecord at h
  split at h
  · cases h
    exact Nat.zero_add _
  · dsimp only at h
    split at h
    · cases h
    · split at h
      · split at h
        · cases h
        · cases h
          rfl
      · split at h
        · cases h
        · next hsame =>
          cases h
          omega

theorem readPendingOverOldFile_bytes {files : OutputFiles δ} {pending outputMeta : OutputMeta δ}
    {n : Nat} (h : readPendingOverOldFile sha256 files pending n = .ok outputMeta) :
    outputMeta.retainedStart + files.output.length = outputMeta.totalBytes := by
  unfold readPendingOverOldFile at h
  simp only [bind, Except.bind, pure, Except.pure, throw, throwThe, MonadExceptOf.throw] at h
  split at h
  · cases h
  · split at h
    · split at h
      · cases h
      · next hfull =>
        split at h
        · cases h
        · split at h
          · cases h
          · split at h
            · cases h
            · split at h
              · cases h
              · split at h
                · cases h
                  exact Nat.sub_add_cancel (Nat.le_of_not_lt hfull)
                · cases h
    · cases h

theorem readValidPendingOutputMeta_bytes {files : OutputFiles δ} {outputMeta : OutputMeta δ}
    (h : readValidPendingOutputMeta sha256 files = .ok (some outputMeta)) :
    outputMeta.retainedStart + files.output.length = outputMeta.totalBytes := by
  unfold readValidPendingOutputMeta at h
  split at h
  · cases h
  · next pending _ =>
    unfold outputMetaRetainedBytes at h
    simp only [bind, Except.bind, pure, Except.pure, throw, throwThe, MonadExceptOf.throw] at h
    split at h
    · cases h
    · next metaRetained hretained =>
      split at hretained
      · cases hretained
      · cases hretained
        split at h
        · split at h
          · cases h
          · next outputMeta' hold =>
            cases h
            exact readPendingOverOldFile_bytes hold
        · split at h
          · cases h
          · split at h
            · split at h
              · split at h <;> cases h
              · cases h
            · cases h
              omega

/-- Metadata that are accepted account for every byte of the file. -/
theorem readOutputMetaRecordForFile_bytes {files : OutputFiles δ} {outputMeta : OutputMeta δ}
    (h : readOutputMetaRecordForFile sha256 files = .ok outputMeta) :
    outputMeta.retainedStart + files.output.length = outputMeta.totalBytes := by
  unfold readOutputMetaRecordForFile at h
  simp only [bind, Except.bind, pure, Except.pure, throw, throwThe, MonadExceptOf.throw] at h
  split at h
  · cases h
  · next pending hpending =>
    split at h
    · cases h
      exact readValidPendingOutputMeta_bytes hpending
    · split at h
      · next hfinal =>
        cases h
        exact readOutputMetaRecord_bytes hfinal
      · cases h

omit [DecidableEq δ] in
theorem described_suffix {file : Bytes} {outputMeta : OutputMeta δ} (capBytes : Int)
    (h : outputMeta.retainedStart + file.length = outputMeta.totalBytes) :
    Suffix (List.replicate outputMeta.retainedStart 0 ++ file)
      (described file outputMeta capBytes) where
  file := by
    rw [described_retainedStart]
    exact (drop_left' (length_replicate)).symm
  total := by
    rw [described_total, length_append, length_replicate, h]
  retained := by
    rw [described_total, described_retainedStart]
    omega
  visible := by
    unfold described OutputMeta.outputViewOf
    split
    · dsimp only
      omega
    · split
      · next hinside => exact hinside.2
      · dsimp only
        omega
  hash := rfl

theorem appendUpTo_spec {stream : Bytes} {o o' : OutputStore} (h : Suffix stream o) {b : Bytes}
    {e : AppendEnd} (happend : o.appendUpTo b e = some o') :
    (∃ stream', Suffix stream' o') ∧
      (e ≠ .replaced → o.retainedStart ≤ o.visibleStart → o'.retainedStart ≤ o'.visibleStart) := by
  cases e with
  | writing n =>
    cases happend
    exact ⟨⟨_, h.appended (b.take n)⟩, fun _ hordered => hordered⟩
  | pruning =>
    cases happend
    exact ⟨⟨_, h.appended b⟩, fun _ hordered => hordered⟩
  | replaced =>
    dsimp only [OutputStore.appendUpTo] at happend
    split at happend
    · exact ⟨⟨_, (pruneLocked_spec (h.appended b) happend).suffix⟩, fun hne => absurd rfl hne⟩
    · cases happend
  | refreshing =>
    obtain ⟨pruned, hprune, rfl⟩ := map_eq_some_iff.mp happend
    obtain ⟨hsuffix, _, hordered, _⟩ := clampVisible_spec (pruneLocked_spec (h.appended b) hprune).suffix
    exact ⟨⟨_, hsuffix⟩, fun _ _ => hordered⟩
  | persisting =>
    obtain ⟨pruned, hprune, hrefresh⟩ := bind_eq_some_iff.mp happend
    have hspec := refreshVisibleLocked_spec (pruneLocked_spec (h.appended b) hprune).suffix hrefresh
    exact ⟨⟨_, hspec.suffix⟩, fun _ _ => hspec.ordered⟩

theorem OutputReached.spec {ends : List AppendEnd} {o : OutputStore}
    (h : OutputReached sha256 ends o) :
    (∃ stream, Suffix stream o) ∧ (.replaced ∉ ends → o.retainedStart ≤ o.visibleStart) := by
  induction h with
  | created h =>
    have hfresh : ∀ capBytes, Suffix [] (OutputStore.created capBytes) :=
      fun _ => ⟨rfl, rfl, Nat.le_refl _, Nat.le_refl _, rfl⟩
    have hspec := settle_spec (hfresh _) h
    exact ⟨⟨_, hspec.settled.suffix⟩, fun _ => hspec.settled.ordered⟩
  | opened h =>
    unfold openOutputFiles at h
    split at h
    · next outputMeta hread =>
      have hspec := settle_spec (described_suffix _ (readOutputMetaRecordForFile_bytes hread)) h
      exact ⟨⟨_, hspec.settled.suffix⟩, fun _ => hspec.settled.ordered⟩
    · cases h
  | appended _ happend ih =>
    obtain ⟨⟨_, hsuffix⟩, hordered⟩ := ih
    obtain ⟨hsuffix', hkeeps⟩ := appendUpTo_spec hsuffix happend
    refine ⟨hsuffix', fun hnone => ?_⟩
    rw [mem_cons, not_or] at hnone
    exact hkeeps (fun h => hnone.1 h.symm) (hordered hnone.2)

/-! ## Paging a reached store -/

/-- Paging with any page size is exact in every store whose file holds the visible start, and in no
    other; only an append that ends between the replacement of the output and the next visible
    start makes another. -/
theorem output_paged {ends : List AppendEnd} {o : OutputStore} (h : OutputReached sha256 ends o)
    {n : Int} (hn : 0 < n) :
    (o.PagedBy n ↔ o.retainedStart ≤ o.visibleStart) ∧
      (.replaced ∉ ends → o.PagedBy n) := by
  obtain ⟨⟨stream, hsuffix⟩, hends⟩ := h.spec
  refine ⟨⟨fun hpaged => ?_, fun hordered => hsuffix.placed.pagedBy hordered hn⟩,
    fun hnone => hsuffix.placed.pagedBy (hends hnone) hn⟩
  by_contra hevicted
  have hnothing := followWindows_evicted (Nat.lt_of_not_le hevicted) hsuffix.retained hn (o.total + 1)
  rw [hpaged.windows (o.total + 1) (by omega)] at hnothing
  cases hnothing

/-- Bytes that are no UTF-8, of which a cap of six hides the first five. -/
def hiddenHead : OutputStore :=
  { file := [128, 97, 128, 128, 128, 128, 98, 128]
    capBytes := 6
    total := 8
    retainedStart := 0
    retainedStartPartial := false
    visibleStart := 5
    visiblePartial := true
    retainedHash := [128, 97, 128, 128, 128, 128, 98, 128] }

theorem hiddenHead_reached : OutputReached id [.persisting] hiddenHead := by
  have hcreated : OutputReached id [] (OutputStore.created 6) :=
    .created (show OutputStore.createOutput id 6 = some ⟨OutputStore.created 6, _⟩ from rfl)
  exact .appended (b := [128, 97, 128, 128, 128, 128, 98, 128]) hcreated rfl

theorem hiddenHead_paged : hiddenHead.PagedBy 4 ∧ hiddenHead.visibleBytes = [128, 98, 128] :=
  ⟨(output_paged hiddenHead_reached (by decide)).2 (by decide), by decide⟩

/-- The output is cut to its last byte, and the directory cannot be synced. -/
def unsyncedTail : OutputStore :=
  { file := [98]
    capBytes := 1
    total := 3
    retainedStart := 2
    retainedStartPartial := true
    visibleStart := 1
    visiblePartial := true
    retainedHash := [98] }

theorem unsyncedTail_reached : OutputReached id [.replaced, .persisting] unsyncedTail := by
  have hcreated : OutputReached id [] (OutputStore.created 1) :=
    .created (show OutputStore.createOutput id 1 = some ⟨OutputStore.created 1, _⟩ from rfl)
  have hwritten : OutputReached id [.persisting]
      { file := [97, 97], capBytes := 1, total := 2, retainedStart := 0,
        retainedStartPartial := false, visibleStart := 1, visiblePartial := true,
        retainedHash := [97, 97] } :=
    .appended (b := [97, 97]) hcreated rfl
  exact .appended (b := [98]) hwritten rfl

/-- Its first visible byte is before the file: forward paging is refused, and a window seeks to a
    negative offset. -/
theorem unsyncedTail_unpaged :
    OutputReached id [.replaced, .persisting] unsyncedTail ∧
      unsyncedTail.readWindow unsyncedTail.visibleStart 1 = ({}, some .coordinates) ∧
      unsyncedTail.window 0 4 = .error (.negativeSeek (-1)) ∧ ¬ unsyncedTail.PagedBy 4 := by
  refine ⟨unsyncedTail_reached, by decide, rfl, fun hpaged => ?_⟩
  have hrange := (hpaged.inWindow 0 4 (by decide)).1
  exact absurd hrange (by decide)

end Evener.Jobstore
