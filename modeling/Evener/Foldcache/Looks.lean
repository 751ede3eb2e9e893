/-
  What each look at a file finds out.

  Every look leaves the files and the cache (`Reads`). A probe that matches has found the
  recorded bytes in front of the recorded offset, and the captured tail is the one that a
  later probe of the same bytes finds.
-/
import Evener.Foldcache.Cache

namespace Evener.Foldcache

open Evener.Lib Evener.Lib.Prog List Tx

variable {T : Type} {disk : Disk} {zero : T} {extend : Extend T} {w : World T}

/-- A step that only looks. -/
structure Reads (w w' : World T) : Prop where
  files : w'.files = w.files
  cache : w'.cache = w.cache

theorem Reads.refl (w : World T) : Reads w w := ⟨rfl, rfl⟩

theorem Reads.trans {u v w : World T} (h : Reads u v) (h' : Reads v w) : Reads u w :=
  ⟨h'.files.trans h.files, h'.cache.trans h.cache⟩

/-! ## Tails -/

variable {offset : Nat} {bytes : Bytes} {path : String}

theorem tailBefore_length (h : offset ≤ bytes.length) :
    (tailBefore offset bytes).length = min tailProbeBytes offset := by
  unfold tailBefore
  rw [length_drop, length_take]
  omega

theorem tailBefore_of_prefix {bytes' : Bytes} (h : offset ≤ bytes.length) (hpre : bytes <+: bytes') :
    tailBefore offset bytes' = tailBefore offset bytes := by
  unfold tailBefore
  obtain ⟨suffix, rfl⟩ := hpre
  rw [take_append_of_le_length h]

theorem read_tail {want : Bytes} (h : want.length = min tailProbeBytes offset) :
    (bytes.drop (offset - want.length)).take want.length = tailBefore offset bytes := by
  unfold tailBefore
  rw [drop_take]
  have hstart : offset - want.length = offset - tailProbeBytes := by omega
  have hlength : want.length = offset - (offset - tailProbeBytes) := by omega
  rw [hstart, ← hlength]

/-! ## System calls -/

theorem call_spec :
    Tx.wp (call disk) w (fun _ w' => Reads w w') fun e w' => Reads w w' ∧ e ≠ .notExist := by
  unfold call Tx.wp
  dsimp only
  cases disk.call w.calls with
  | none => exact ⟨rfl, rfl⟩
  | some text => exact ⟨⟨rfl, rfl⟩, fun h => nomatch h⟩

theorem fileAt_spec {Q : Option File → World T → Prop} {E : Failure → World T → Prop}
    (h : Q (w.files path) w) : Tx.wp (fileAt path) w Q E := h

theorem statFile_spec :
    Tx.wp (statFile disk path) w
      (fun info w' => Reads w w' ∧ ∃ file, w.files path = some file ∧ info = file.info)
      (fun e w' => Reads w w' ∧ (e = .notExist → w.files path = none)) := by
  unfold statFile
  rw [wp_bind]
  refine wp_mono call_spec (fun _ w' hreads => ?_) fun e w' h => ⟨h.1, fun he => absurd he h.2⟩
  rw [wp_bind]
  refine fileAt_spec ?_
  rw [hreads.files]
  cases hfile : w.files path with
  | none => exact ⟨hreads, fun _ => rfl⟩
  | some file => exact ⟨hreads, file, rfl, rfl⟩

/-- What a probe may answer: a match only over the recorded bytes, and a mismatch over them
    only when the read itself failed. -/
structure Probed (disk : Disk) (file : Option File) (offset : Nat) (want : Bytes)
    (answer : Bool × Option FileInfo) : Prop where
  info : answer.2 = file.map File.info
  sound : answer.1 = true → ∃ f, file = some f ∧ tailBefore offset f.bytes = want
  complete : (∀ n, disk.readAt n = none) → ∀ f, file = some f → tailBefore offset f.bytes = want →
    answer.1 = true

theorem probe_spec {want : Bytes} (hwant : want.length = min tailProbeBytes offset) :
    Tx.wp (probeTailFromHandle disk path offset want) w
      (fun answer w' => Reads w w' ∧ Probed disk (w.files path) offset want answer)
      (fun _ w' => Reads w w') := by
  unfold probeTailFromHandle
  rw [wp_bind]
  refine wp_mono call_spec (fun _ w₁ hreads => ?_) fun e w' h => h.1
  rw [wp_bind]
  refine fileAt_spec ?_
  rw [hreads.files]
  cases hfile : w.files path with
  | none =>
    exact ⟨hreads, rfl, fun h => (nomatch h), fun _ f h => nomatch h⟩
  | some file =>
    show Tx.wp (call disk >>= _) w₁ _ _
    rw [wp_bind]
    refine wp_mono call_spec (fun _ w₂ hreads₂ => ?_) fun e w' h => hreads.trans h.1
    have hreads := hreads.trans hreads₂
    rw [wp_ite]
    refine ⟨fun hempty => ?_, fun hnonempty => ?_⟩
    · have hoffset : offset = 0 := by
        rw [hempty, length_nil] at hwant
        unfold tailProbeBytes at hwant
        omega
      have htail : tailBefore offset file.bytes = want := by
        rw [hempty, hoffset]
        rfl
      exact ⟨hreads, rfl, fun _ => ⟨file, rfl, htail⟩, fun _ _ _ _ => rfl⟩
    · rw [wp_ite]
      refine ⟨fun hshort => by omega, fun hlong => ?_⟩
      rw [wp_bind]
      unfold readAt Tx.wp
      refine ⟨⟨hreads.files, hreads.cache⟩, rfl, fun hmatch => ⟨file, rfl, ?_⟩, ?_⟩
      · dsimp only at hmatch
        rw [read_tail hwant] at hmatch
        have hgot := of_decide_eq_true hmatch
        split at hgot
        · exact Option.some.inj hgot
        · cases hgot
      · intro hreadAt f hf htail
        cases hf
        rw [read_tail hwant, htail, if_pos ⟨rfl, hreadAt _⟩]
        exact decide_eq_true rfl

theorem readTail_spec :
    Tx.wp (readTail disk path offset) w
      (fun tail w' => Reads w w' ∧ ∀ file, w.files path = some file →
        offset ≤ file.bytes.length ∧ tail = tailBefore offset file.bytes)
      (fun _ w' => Reads w w') := by
  unfold readTail
  rw [wp_bind]
  refine wp_mono call_spec (fun _ w₁ hreads => ?_) fun e w' h => h.1
  rw [wp_bind]
  refine fileAt_spec ?_
  rw [hreads.files]
  cases hfile : w.files path with
  | none => exact ⟨hreads, fun file h => nomatch h⟩
  | some file =>
    show Tx.wp (call disk >>= _) w₁ _ _
    rw [wp_bind]
    refine wp_mono call_spec (fun _ w₂ hreads₂ => ?_) fun e w' h => hreads.trans h.1
    have hreads := hreads.trans hreads₂
    rw [wp_bind]
    refine wp_mono call_spec (fun _ w₃ hreads₃ => ?_) fun e w' h => hreads.trans h.1
    have hreads := hreads.trans hreads₃
    unfold readFull
    rw [wp_ite]
    refine ⟨fun hlength => ⟨hreads, fun f hf => ?_⟩, fun _ => ?_⟩
    · cases hf
      refine ⟨?_, ?_⟩
      · rw [length_take, length_drop] at hlength
        unfold tailProbeBytes at hlength
        omega
      · unfold tailBefore
        rw [drop_take]
    · rw [wp_ite]
      exact ⟨fun _ => hreads, fun _ => hreads⟩

theorem runExtend_spec {fromOffset : Nat} {prior : T} :
    Tx.wp (runExtend disk extend path fromOffset prior) w
      (fun folded w' => Reads w w' ∧
        extend path ((w.files path).map File.bytes) fromOffset prior = .ok folded)
      (fun _ w' => Reads w w') := by
  unfold runExtend
  rw [wp_bind]
  refine wp_mono call_spec (fun _ w₁ hreads => ?_) fun e w' h => h.1
  rw [wp_bind, wp_read, hreads.files]
  cases hextend : extend path ((w.files path).map File.bytes) fromOffset prior with
  | error e => exact hreads
  | ok folded => exact ⟨hreads, rfl⟩

theorem candidate_spec {info : FileInfo} :
    Tx.wp (candidate path info) w
      (fun found w' => w' = w ∧ ∀ e st, found = some (e, st) → w.cache.entry path = some e ∧
        w.cache.epochStates path = some st ∧ st.size = info.size)
      (fun _ _ => False) := by
  unfold candidate recorded
  rw [wp_bind, wp_bind, wp_read, wp_pure]
  cases hentry : w.cache.entry path with
  | none => exact ⟨rfl, fun e st h => nomatch h⟩
  | some e =>
    cases hst : w.cache.epochStates path with
    | none => exact ⟨rfl, fun e st h => nomatch h⟩
    | some st =>
      rw [wp_ite]
      refine ⟨fun _ => ⟨rfl, fun e st h => nomatch h⟩, fun hagrees => ⟨rfl, fun e' st' h => ?_⟩⟩
      cases h
      push Not at hagrees
      exact ⟨rfl, rfl, hagrees.2.1⟩

end Evener.Foldcache
