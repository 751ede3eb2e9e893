/-
  The capture of a child process's output, bounded by a number of bytes.

  Up to the cap the buffer is the stream; past it, the frozen head and a ring with the newest
  bytes. Every write keeps what the buffer says about the stream (`Captures.write`).
-/
import Evener.Lib.Utf8
import Evener.Lib.ByteText
import Evener.Lib.Numerals

namespace Evener.Cappedoutput
open Evener.Lib List

/-! ## The buffer -/

def omissionMarker (omitted : Nat) : Bytes :=
  utf8 "\n[... " ++ decimal omitted ++ utf8 " bytes omitted ...]\n"

/-- 8 MiB. -/
def defaultCapBytes : Nat := 8388608

structure Buffer where
  capBytes : Nat
  total : Nat
  buf : Bytes
  head : Bytes
  tail : Bytes
  tailW : Nat
  overCap : Bool
deriving DecidableEq

def new (capBytes : Int) : Buffer where
  capBytes := if capBytes ≤ 0 then defaultCapBytes else capBytes.toNat
  total := 0
  buf := []
  head := []
  tail := []
  tailW := 0
  overCap := false

/-- `copy(dst[i:], src)`. -/
def copyAt (dst : Bytes) (i : Nat) (src : Bytes) : Bytes :=
  dst.take i ++ src.take (dst.length - i) ++ dst.drop (i + src.length)

def Buffer.writeTail (b : Buffer) (p : Bytes) : Buffer :=
  if b.tail.length = 0 then b
  else if b.tail.length ≤ p.length then
    { b with tail := copyAt b.tail 0 (p.drop (p.length - b.tail.length)), tailW := 0 }
  else
    let n := min (b.tail.length - b.tailW) p.length
    let tail := copyAt b.tail b.tailW p
    { b with
      tail := if n < p.length then copyAt tail 0 (p.drop n) else tail
      tailW := (b.tailW + p.length) % b.tail.length }

def Buffer.write (b : Buffer) (p : Bytes) : Buffer :=
  let b := { b with total := b.total + p.length }
  if b.overCap then b.writeTail p
  else if b.total ≤ b.capBytes then { b with buf := b.buf ++ p }
  else
    let combined := b.buf ++ p
    let headLen := b.capBytes / 2
    let b := { b with
      buf := []
      head := combined.take headLen
      tail := List.replicate (b.capBytes - headLen) 0 }
    { b.writeTail (combined.drop headLen) with overCap := true }

def Buffer.tailView (b : Buffer) : Bytes := b.tail.drop b.tailW ++ b.tail.take b.tailW

def Buffer.truncated (b : Buffer) : Bool := b.overCap

def Buffer.string (b : Buffer) : Bytes :=
  if b.overCap then
    let head := trimTrailingPartial b.head
    let tail := trimLeadingPartial b.tailView
    let omitted := b.total - head.length - tail.length
    head ++ omissionMarker omitted ++ tail
  else b.buf

/-- A capture that was fed the chunks. -/
def capture (capBytes : Int) (chunks : List Bytes) : Buffer :=
  chunks.foldl Buffer.write (new capBytes)

/-! ## The ring -/

variable {dst src p stream : Bytes} {i cap : Nat} {b : Buffer}

theorem copyAt_fits (h : i + src.length ≤ dst.length) :
    copyAt dst i src = dst.take i ++ src ++ dst.drop (i + src.length) := by
  unfold copyAt
  rw [take_of_length_le (by omega : src.length ≤ dst.length - i)]

theorem copyAt_past (h : dst.length ≤ i + src.length) :
    copyAt dst i src = dst.take i ++ src.take (dst.length - i) := by
  unfold copyAt
  rw [drop_of_length_le h, append_nil]

theorem length_copyAt (h : i ≤ dst.length) : (copyAt dst i src).length = dst.length := by
  unfold copyAt
  rw [length_append, length_append, length_take, length_take, length_drop]
  omega

theorem length_tailView (hw : b.tailW ≤ b.tail.length) : b.tailView.length = b.tail.length := by
  unfold Buffer.tailView
  rw [length_append, length_drop, length_take]
  omega

theorem writeTail_length (hw : b.tailW < b.tail.length) (p : Bytes) :
    (b.writeTail p).tail.length = b.tail.length := by
  unfold Buffer.writeTail
  rw [if_neg (by omega)]
  split
  · exact length_copyAt (Nat.zero_le _)
  · dsimp only
    split
    · rw [length_copyAt (Nat.zero_le _), length_copyAt (Nat.le_of_lt hw)]
    · exact length_copyAt (Nat.le_of_lt hw)

theorem writeTail_tailW (hw : b.tailW < b.tail.length) (p : Bytes) :
    (b.writeTail p).tailW < b.tail.length := by
  unfold Buffer.writeTail
  rw [if_neg (by omega)]
  split
  · exact Nat.lt_of_le_of_lt (Nat.zero_le _) hw
  · exact Nat.mod_lt _ (by omega)

/-- A write that does not reach the ring's end. -/
theorem tailView_fits (h : b.tailW + p.length ≤ b.tail.length) (hw : b.tailW < b.tail.length)
    (hp : p.length < b.tail.length) :
    (b.writeTail p).tailView = (b.tailView ++ p).drop p.length := by
  have hview : (b.tailView ++ p).drop p.length =
      b.tail.drop (b.tailW + p.length) ++ b.tail.take b.tailW ++ p := by
    unfold Buffer.tailView
    rw [append_assoc, drop_append_of_le_length (by rw [length_drop]; omega),
      drop_drop, append_assoc]
  rw [hview]
  unfold Buffer.writeTail Buffer.tailView
  rw [if_neg (by omega), if_neg (by omega)]
  dsimp only
  rw [if_neg (by omega), copyAt_fits h]
  rcases Nat.lt_or_eq_of_le h with hinside | hend
  · have hlength : (b.tail.take b.tailW ++ p).length = b.tailW + p.length := by
      rw [length_append, length_take]
      omega
    rw [Nat.mod_eq_of_lt hinside, ← hlength, drop_left, take_left, append_assoc]
  · rw [hend, Nat.mod_self, drop_length, append_nil, drop_zero, take_zero,
      append_nil, nil_append]

/-- A write that goes on at the ring's beginning. -/
theorem tailView_wraps (h : b.tail.length < b.tailW + p.length) (hw : b.tailW < b.tail.length)
    (hp : p.length < b.tail.length) :
    (b.writeTail p).tailView = (b.tailView ++ p).drop p.length := by
  -- `room` bytes go to the ring's end, the other `wrapped` ones to its beginning.
  obtain ⟨room, hroom⟩ : ∃ room, room = b.tail.length - b.tailW := ⟨_, rfl⟩
  obtain ⟨wrapped, hwrapped⟩ : ∃ wrapped, wrapped = p.length - room := ⟨_, rfl⟩
  have hview : (b.tailView ++ p).drop p.length = (b.tail.take b.tailW).drop wrapped ++ p := by
    unfold Buffer.tailView
    rw [append_assoc, drop_append, length_drop, drop_of_length_le (by
      rw [length_drop]; omega), nil_append, ← hroom, ← hwrapped,
      drop_append_of_le_length (by rw [length_take]; omega)]
  have hmod : (b.tailW + p.length) % b.tail.length = wrapped := by
    rw [Nat.mod_eq_sub_mod (by omega), Nat.mod_eq_of_lt (by omega)]
    omega
  have hrest : (p.drop room).length = wrapped := by
    rw [length_drop, hwrapped]
  have hend : copyAt b.tail b.tailW p = b.tail.take b.tailW ++ p.take room := by
    rw [copyAt_past (by omega), ← hroom]
  have hbegin : copyAt (b.tail.take b.tailW ++ p.take room) 0 (p.drop room) =
      p.drop room ++ ((b.tail.take b.tailW).drop wrapped ++ p.take room) := by
    have hlength : (b.tail.take b.tailW).length = b.tailW := length_take_of_le (by omega)
    rw [copyAt_fits (by rw [hrest, length_append]; omega), take_zero, nil_append,
      hrest, Nat.zero_add, drop_append_of_le_length (by omega)]
  rw [hview]
  unfold Buffer.writeTail Buffer.tailView
  rw [if_neg (by omega), if_neg (by omega)]
  dsimp only
  rw [Nat.min_eq_left (by omega), ← hroom, if_pos (by omega), hmod, hend, hbegin, ← hrest,
    drop_left, take_left, append_assoc, take_append_drop]

/-- The ring forgets as many of the oldest bytes as are written. -/
theorem tailView_writeTail (hw : b.tailW < b.tail.length) (p : Bytes) :
    (b.writeTail p).tailView = (b.tailView ++ p).drop p.length := by
  by_cases hlong : b.tail.length ≤ p.length
  · have hdrop : (b.tailView ++ p).drop p.length = p.drop (p.length - b.tail.length) := by
      have hlength := length_tailView (Nat.le_of_lt hw)
      rw [drop_append, drop_of_length_le (by omega), hlength, nil_append]
    have hlength : (p.drop (p.length - b.tail.length)).length = b.tail.length := by
      rw [length_drop]
      omega
    rw [hdrop]
    unfold Buffer.writeTail Buffer.tailView
    rw [if_neg (by omega), if_pos hlong]
    rw [copyAt_past (by omega), take_zero, nil_append, Nat.sub_zero, drop_zero,
      take_zero, append_nil, take_of_length_le (Nat.le_of_eq hlength)]
  · by_cases hfits : b.tailW + p.length ≤ b.tail.length
    · exact tailView_fits hfits hw (by omega)
    · exact tailView_wraps (by omega) hw (by omega)

/-! ## What the buffer says about the stream -/

/-- The cap has tripped. -/
structure Windowed (cap : Nat) (stream : Bytes) (b : Buffer) : Prop where
  overCap : b.overCap = true
  total : b.total = stream.length
  head : b.head = stream.take (cap / 2)
  size : b.tail.length = cap - cap / 2
  ring : b.tailW < b.tail.length
  view : b.tailView = stream.drop (stream.length - (cap - cap / 2))

inductive Captures (cap : Nat) (stream : Bytes) : Buffer → Prop where
  | exact (h : stream.length ≤ cap) :
      Captures cap stream ⟨cap, stream.length, stream, [], [], 0, false⟩
  | windowed {b : Buffer} (h : cap < stream.length) (hb : Windowed cap stream b) :
      Captures cap stream b

theorem writeTail_frame (b : Buffer) (p : Bytes) :
    (b.writeTail p).total = b.total ∧ (b.writeTail p).head = b.head ∧
      (b.writeTail p).overCap = b.overCap := by
  unfold Buffer.writeTail
  split
  · exact ⟨rfl, rfl, rfl⟩
  · split
    · exact ⟨rfl, rfl, rfl⟩
    · exact ⟨rfl, rfl, rfl⟩

theorem Windowed.write (h : Windowed cap stream b) (hlong : cap < stream.length) (p : Bytes) :
    Windowed cap (stream ++ p) (b.write p) := by
  obtain ⟨b', hb'⟩ : ∃ b', b' = { b with total := b.total + p.length } := ⟨_, rfl⟩
  have hwrite : b.write p = b'.writeTail p := by
    unfold Buffer.write
    rw [hb']
    exact if_pos h.overCap
  obtain ⟨htotal, hhead, hover⟩ := writeTail_frame b' p
  have hring : b'.tailW < b'.tail.length := by
    rw [hb']
    exact h.ring
  have hview : b'.tailView = stream.drop (stream.length - (cap - cap / 2)) := by
    rw [hb']
    exact h.view
  have hsize := writeTail_length hring p
  rw [hwrite]
  refine ⟨?_, ?_, ?_, ?_, ?_, ?_⟩
  · rw [hover, hb']
    exact h.overCap
  · rw [htotal, hb', length_append]
    exact congrArg (· + p.length) h.total
  · rw [hhead, hb', take_append_of_le_length (by omega)]
    exact h.head
  · rw [hsize, hb']
    exact h.size
  · rw [hsize]
    exact writeTail_tailW hring p
  · rw [tailView_writeTail hring, hview, ← drop_append_of_le_length (by omega),
      drop_drop, length_append]
    congr 1
    omega

/-- The write that trips the cap. -/
theorem Windowed.trip (hcap : 0 < cap) (hlong : cap < (stream ++ p).length) :
    Windowed cap (stream ++ p)
      (Buffer.write ⟨cap, stream.length, stream, [], [], 0, false⟩ p) := by
  obtain ⟨b, hb⟩ : ∃ b : Buffer, b = ⟨cap, stream.length + p.length, [],
      (stream ++ p).take (cap / 2), List.replicate (cap - cap / 2) 0, 0, false⟩ := ⟨_, rfl⟩
  have hlength : b.tail.length = cap - cap / 2 := by
    rw [hb]
    exact length_replicate
  have hring : b.tailW < b.tail.length := by
    rw [hlength, hb]
    dsimp only
    omega
  have hwrite : Buffer.write ⟨cap, stream.length, stream, [], [], 0, false⟩ p =
      { b.writeTail ((stream ++ p).drop (cap / 2)) with overCap := true } := by
    rw [hb]
    unfold Buffer.write
    rw [length_append] at hlong
    exact if_neg (Nat.not_le.mpr hlong)
  obtain ⟨htotal, hhead, _⟩ := writeTail_frame b ((stream ++ p).drop (cap / 2))
  have hsize := writeTail_length hring ((stream ++ p).drop (cap / 2))
  have hnewest := length_tailView (Nat.le_of_lt hring)
  rw [hwrite]
  refine ⟨rfl, ?_, ?_, ?_, ?_, ?_⟩
  · rw [length_append]
    exact htotal.trans (congrArg Buffer.total hb)
  · exact hhead.trans (congrArg Buffer.head hb)
  · exact hsize.trans hlength
  · exact Nat.lt_of_lt_of_eq (writeTail_tailW hring _) hsize.symm
  · refine (tailView_writeTail hring _).trans ?_
    rw [drop_append, hnewest, hlength, drop_of_length_le (by
      rw [hnewest, hlength, length_drop]; omega), nil_append, drop_drop,
      length_drop]
    congr 1
    omega

theorem Captures.write (hcap : 0 < cap) (h : Captures cap stream b) (p : Bytes) :
    Captures cap (stream ++ p) (b.write p) := by
  cases h with
  | windowed hlong hb =>
    exact .windowed (by rw [length_append]; omega) (hb.write hlong p)
  | exact hshort =>
    by_cases hfits : (stream ++ p).length ≤ cap
    · have hwrite : Buffer.write ⟨cap, stream.length, stream, [], [], 0, false⟩ p =
          ⟨cap, (stream ++ p).length, stream ++ p, [], [], 0, false⟩ := by
        unfold Buffer.write
        rw [length_append] at hfits ⊢
        exact if_pos hfits
      rw [hwrite]
      exact .exact hfits
    · exact .windowed (by omega) (Windowed.trip hcap (by omega))

theorem foldl_captures (hcap : 0 < cap) (h : Captures cap stream b) (chunks : List Bytes) :
    Captures cap (stream ++ chunks.flatten) (chunks.foldl Buffer.write b) := by
  induction chunks generalizing stream b with
  | nil =>
    rw [flatten_nil, append_nil]
    exact h
  | cons p chunks ih =>
    rw [flatten_cons, ← append_assoc]
    exact ih (h.write hcap p)

theorem capture_captures (hcap : 0 < cap) (chunks : List Bytes) :
    Captures cap chunks.flatten (capture cap chunks) := by
  have hnew : Buffer.mk cap 0 [] [] [] 0 false = new cap := by
    unfold new
    rw [if_neg (by omega), Int.toNat_natCast]
  have hstart : Captures cap [] (new cap) := hnew ▸ .exact (Nat.zero_le _)
  exact foldl_captures hcap hstart chunks

theorem Captures.agree {b' : Buffer} (h : Captures cap stream b) (h' : Captures cap stream b') :
    b.string = b'.string ∧ b.truncated = b'.truncated ∧ b.tailView = b'.tailView := by
  cases h with
  | exact hshort =>
    cases h' with
    | exact _ => exact ⟨rfl, rfl, rfl⟩
    | windowed hlong _ => omega
  | windowed hlong hb =>
    cases h' with
    | exact hshort => omega
    | windowed _ hb' =>
      unfold Buffer.string Buffer.truncated
      rw [hb.overCap, hb'.overCap, hb.head, hb'.head, hb.total, hb'.total, hb.view, hb'.view]
      exact ⟨rfl, rfl, rfl⟩

/-! ## What is shown -/

/-- The front and the end of a stream around the marker. What the front loses is its last sequence,
    which does not decode; what the end loses is at most three bytes that begin no character. -/
structure Shown (cap : Nat) (stream shown lost orphans kept text : Bytes) : Prop where
  front : stream.take (cap / 2) = shown ++ lost
  sequence : lost = [] ∨ Sequence lost ∧ runeSize lost = none
  back : stream.drop (stream.length - (cap - cap / 2)) = orphans ++ kept
  few : orphans.length ≤ 3
  orphaned : ∀ c ∈ orphans, runeStart c = false
  text : ∃ omitted, text = shown ++ omissionMarker omitted ++ kept ∧
    shown.length + omitted + kept.length = stream.length

theorem Windowed.shown (h : Windowed cap stream b) (hlong : cap < stream.length) :
    ∃ lost orphans, Shown cap stream (trimTrailingPartial (stream.take (cap / 2))) lost orphans
      (trimLeadingPartial (stream.drop (stream.length - (cap - cap / 2)))) b.string := by
  obtain ⟨lost, hfront, hlost⟩ := trimTrailingPartial_lost (stream.take (cap / 2))
  obtain ⟨orphans, hback, hfew, horphans⟩ :=
    trimLeadingFrom_lost 3 (stream.drop (stream.length - (cap - cap / 2)))
  have hshown := congrArg List.length hfront
  have hkept := congrArg List.length hback
  rw [length_append, length_take] at hshown
  rw [length_append, length_drop] at hkept
  refine ⟨lost, orphans, hfront, hlost, hback, hfew, horphans, ?_⟩
  unfold Buffer.string
  rw [if_pos h.overCap, h.head, h.view, h.total]
  refine ⟨_, rfl, ?_⟩
  unfold trimLeadingPartial
  omega

theorem validUtf8_omissionMarker (omitted : Nat) : ValidUtf8 (omissionMarker omitted) := by
  refine validUtf8_ascii fun b hb => ?_
  unfold omissionMarker at hb
  rw [mem_append, mem_append] at hb
  have hopen : (utf8 "\n[... ").all (· < 0x80) = true := by decide
  have hclose : (utf8 " bytes omitted ...]\n").all (· < 0x80) = true := by decide
  rcases hb with (hb | hb) | hb
  · exact of_decide_eq_true (all_eq_true.mp hopen b hb)
  · have hdigit := decimal_digits omitted b hb
    unfold isDigit at hdigit
    rw [Bool.and_eq_true, decide_eq_true_eq, decide_eq_true_eq] at hdigit
    exact UInt8.lt_of_le_of_lt hdigit.2 (by decide)
  · exact of_decide_eq_true (all_eq_true.mp hclose b hb)

/-- Of a valid stream the front loses at most one incomplete character, and the text is valid. -/
theorem Shown.valid {lost orphans text : Bytes}
    (h : Shown cap stream (trimTrailingPartial (stream.take (cap / 2))) lost orphans (trimLeadingPartial (stream.drop (stream.length - (cap - cap / 2)))) text)
    (hvalid : ValidUtf8 stream) : (lost = [] ∨ Incomplete lost) ∧ ValidUtf8 text := by
  obtain ⟨front, part, htake, hfront, hpart⟩ := hvalid.take (cap / 2)
  obtain ⟨cut, back, hdrop, hfew, hcut, hback⟩ :=
    hvalid.drop (stream.length - (cap - cap / 2))
  have hshown : trimTrailingPartial (stream.take (cap / 2)) = front := by
    rw [htake, trimTrailingPartial_valid hfront hpart]
  have hkept : trimLeadingPartial (stream.drop (stream.length - (cap - cap / 2))) = back := by
    rw [hdrop]
    exact trimLeadingFrom_orphans hfew hcut hback.head
  have hlost : lost = part := by
    have heq := h.front
    rw [hshown, htake] at heq
    exact (append_cancel_left heq).symm
  obtain ⟨omitted, htext, _⟩ := h.text
  rw [hlost, htext, hshown, hkept]
  exact ⟨hpart, (hfront.append (validUtf8_omissionMarker omitted)).append hback⟩

/-- The capture is a function of the stream: all of it up to the cap, and past it the front and the
    end that `Shown` describes, with the number of the missing bytes between them. -/
theorem capture_of_stream {cap : Nat} (hcap : 0 < cap) (chunks : List Bytes) :
    (∀ others : List Bytes, others.flatten = chunks.flatten →
      (capture cap others).string = (capture cap chunks).string ∧
      (capture cap others).truncated = (capture cap chunks).truncated ∧
      (capture cap others).tailView = (capture cap chunks).tailView) ∧
    ((capture cap chunks).truncated = true ↔ cap < chunks.flatten.length) ∧
    (chunks.flatten.length ≤ cap → (capture cap chunks).string = chunks.flatten) ∧
    (cap < chunks.flatten.length →
      (capture cap chunks).tailView =
        chunks.flatten.drop (chunks.flatten.length - (cap - cap / 2)) ∧
      ∃ shown lost orphans kept,
        Shown cap chunks.flatten shown lost orphans kept (capture cap chunks).string ∧
        (ValidUtf8 chunks.flatten → lost = [] ∨ Incomplete lost)) ∧
    (ValidUtf8 chunks.flatten → ValidUtf8 (capture cap chunks).string) := by
  have hcaptures := capture_captures hcap chunks
  refine ⟨fun others heq => (heq ▸ capture_captures hcap others).agree hcaptures, ?_⟩
  generalize capture cap chunks = b at hcaptures
  cases hcaptures with
  | exact hshort =>
    exact ⟨iff_of_false Bool.false_ne_true (by omega), fun _ => rfl, fun hlong => by omega, id⟩
  | windowed hlong hb =>
    obtain ⟨lost, orphans, hshown⟩ := hb.shown hlong
    refine ⟨iff_of_true hb.overCap hlong, fun hshort => by omega, fun _ => ⟨hb.view, ?_⟩,
      fun hvalid => (hshown.valid hvalid).2⟩
    exact ⟨_, lost, orphans, _, hshown, fun hvalid => (hshown.valid hvalid).1⟩

/-- Three writes of a text of two-byte characters against a cap of 5. -/
theorem capture_of_stream_split :
    ValidUtf8 (capture 5 [[0xC3], [0xA9, 0xC3, 0xA9, 0xC3], [0xA9]]).string :=
  have hrune : IsRune [0xC3, 0xA9] := rfl
  have hvalid : ValidUtf8 ([0xC3, 0xA9] ++ ([0xC3, 0xA9] ++ ([0xC3, 0xA9] ++ []))) :=
    .cons hrune (.cons hrune (.cons hrune .nil))
  (capture_of_stream (by decide : 0 < 5)
    [[0xC3], [0xA9, 0xC3, 0xA9, 0xC3], [0xA9]]).2.2.2.2 hvalid

/-- The byte `FF` begins no character, and the front loses it. -/
theorem front_loses_no_character :
    ¬ ∃ shown lost kept : Bytes, ∃ omitted : Nat,
      ([0x41, 0xFF, 0x42, 0x43, 0x44] : Bytes).take (4 / 2) = shown ++ lost ∧
      (lost = [] ∨ Incomplete lost) ∧
      (capture 4 [[0x41, 0xFF, 0x42, 0x43, 0x44]]).string =
        shown ++ omissionMarker omitted ++ kept := by
  rintro ⟨shown, lost, kept, omitted, hfront, hlost, hstring⟩
  have hvalue : (capture 4 [[0x41, 0xFF, 0x42, 0x43, 0x44]]).string =
      0x41 :: 0x0A :: ((omissionMarker 2).tail ++ [0x43, 0x44]) := by decide
  rw [hvalue] at hstring
  have hfront : 0x41 :: 0xFF :: [] = shown ++ lost := hfront
  rcases shown with _ | ⟨a, _ | ⟨b, shown⟩⟩
  · -- the front would have lost `41 FF`, and `41` is a whole character
    rcases hlost with rfl | ⟨_, more, _, hrune⟩
    · exact nomatch hfront
    · rw [← (show _ = lost from hfront)] at hrune
      have hsize : runeSize (0x41 :: 0xFF :: more) = some 1 := rfl
      have hlength := Option.some.inj (hsize.symm.trans hrune)
      exact nomatch Nat.succ.inj hlength
  · -- the front would have lost `FF`
    have hff : [0xFF] = lost := (List.cons.inj hfront).2
    rcases hlost with rfl | ⟨_, more, _, hrune⟩
    · exact nomatch hff
    · rw [← hff] at hrune
      have hsize : runeSize (0xFF :: more) = none := rfl
      exact nomatch hsize.symm.trans hrune
  · -- the front would show `FF`, and the text has the marker's newline there
    have hff : (0xFF : UInt8) = b := (List.cons.inj (List.cons.inj hfront).2).1
    have hnewline : (0x0A : UInt8) = b := (List.cons.inj (List.cons.inj hstring).2).1
    exact absurd (hff.trans hnewline.symm) (by decide)

end Evener.Cappedoutput
