/-
  The head and the tail of retained output, cut at characters.
-/
import Evener.Jobstore.OutputPages
import Evener.Lib.Utf8

namespace Evener.Jobstore

open Evener.Lib List

def outputSnapshotWindow (retainedBytes visibleAt maxBytes : Int) (fromHead : Bool) : Int × Int :=
  let visibleAt := min (max visibleAt 0) retainedBytes
  let size := min (retainedBytes - visibleAt) maxBytes
  (if fromHead then visibleAt else retainedBytes - size, size)

def trimOutputSnapshotWindow (content : Bytes) (retainedBytes visibleAt start : Int)
    (fromHead : Bool) : Bytes :=
  if fromHead ∧ start + content.length < retainedBytes then trimTrailingPartial content
  else if ¬ fromHead ∧ visibleAt < start then trimLeadingPartial content
  else content

namespace OutputStore

/-- `Head` and `Tail`: the bytes, the lifetime total and whether there is more. -/
def readEdge (o : OutputStore) (maxBytes : Int) (fromHead : Bool) :
    Except OutputReadError (Bytes × Nat × Bool) :=
  if maxBytes < 0 then throw (.invalidLimit maxBytes)
  else
    let retained : Int := o.file.length
    let visibleAt := min (max ((o.visibleStart : Int) - o.retainedStart) 0) retained
    let window := outputSnapshotWindow retained visibleAt maxBytes fromHead
    readFileAt o.file window.1 window.2 >>= fun buf =>
      pure (trimOutputSnapshotWindow buf retained visibleAt window.1 fromHead, o.total,
        0 < o.visibleStart || window.2 < retained - visibleAt)

/-- The `n` visible bytes at one end, cut at a character. -/
def edge (o : OutputStore) (n : Nat) : Bool → Bytes
  | true => trimTrailingPartial (o.visibleBytes.take n)
  | false => trimLeadingPartial (o.visibleBytes.drop (o.visibleBytes.length - n))

variable {o : OutputStore}

theorem readFileAt_inside {file : Bytes} {i k : Nat} (h : i + k ≤ file.length) :
    readFileAt file i k = .ok ((file.drop i).take k) := by
  have hlength : ((file.drop i).take k).length = k := by
    rw [length_take, length_drop]
    omega
  unfold readFileAt
  rw [if_neg (by omega), if_neg (by omega), Int.toNat_natCast, Int.toNat_natCast]
  dsimp only
  rw [hlength, if_neg (Nat.lt_irrefl _)]
  rfl

theorem Placed.readEdge_eq (h : o.Placed) (hordered : o.retainedStart ≤ o.visibleStart) (n : Nat)
    (fromHead : Bool) :
    o.readEdge n fromHead = .ok (if o.visibleBytes.length ≤ n then o.visibleBytes
      else o.edge n fromHead, o.total,
      decide (0 < o.visibleStart) || decide (n < o.visibleBytes.length)) := by
  have hplaced := h.length
  have hvisible := h.visible
  obtain ⟨i, hi⟩ : ∃ i, i = o.visibleStart - o.retainedStart := ⟨_, rfl⟩
  have hbytes : o.visibleBytes = o.file.drop i := by rw [hi]; rfl
  have hlength : o.visibleBytes.length = o.file.length - i := by rw [hbytes, length_drop]
  have hat : min (max ((o.visibleStart : Int) - o.retainedStart) 0) o.file.length = i := by omega
  have hclamped : min (max (i : Int) 0) o.file.length = i := by omega
  obtain ⟨k, hk⟩ : ∃ k, k = min o.visibleBytes.length n := ⟨_, rfl⟩
  have hsize : min ((o.file.length : Int) - i) n = k := by omega
  have hstart : (o.file.length : Int) - k = (o.file.length - k : Nat) := by omega
  have hmore : decide ((k : Int) < o.file.length - i) = decide (n < o.visibleBytes.length) :=
    decide_eq_decide.mpr (by omega)
  unfold readEdge outputSnapshotWindow trimOutputSnapshotWindow
  rw [if_neg (by omega)]
  dsimp only
  rw [hat, hclamped, hsize, hstart, hmore]
  cases fromHead with
  | true =>
    rw [if_pos rfl, readFileAt_inside (by omega), ← hbytes]
    dsimp only [bind, Except.bind]
    have htake : (o.visibleBytes.take k).length = k := by rw [length_take]; omega
    rw [htake]
    by_cases hall : o.visibleBytes.length ≤ n
    · rw [if_neg (by omega), if_neg (by simp), if_pos hall, take_of_length_le (by omega)]
      rfl
    · rw [if_pos ⟨rfl, by omega⟩, if_neg hall, show k = n by omega]
      rfl
  | false =>
    rw [if_neg (by simp), readFileAt_inside (by omega)]
    dsimp only [bind, Except.bind]
    have hback : (o.file.drop (o.file.length - k)).take k =
        o.visibleBytes.drop (o.visibleBytes.length - k) := by
      rw [take_of_length_le (by rw [length_drop]; omega), hbytes, drop_drop,
        length_drop]
      congr 1
      omega
    rw [hback, if_neg (by simp)]
    by_cases hall : o.visibleBytes.length ≤ n
    · rw [if_neg (by omega), if_pos hall, show o.visibleBytes.length - k = 0 by omega]
      rfl
    · rw [if_pos ⟨by simp, by omega⟩, if_neg hall, show k = n by omega]
      rfl

/-- A cut is an end of what it is cut from, and splits no character. -/
theorem edge_spec (o : OutputStore) (n : Nat) (fromHead : Bool) :
    (if fromHead then o.edge n fromHead <+: o.visibleBytes
      else o.edge n fromHead <:+ o.visibleBytes) ∧
    (n ≤ o.visibleBytes.length → (o.edge n fromHead).length ≤ n) ∧
    (ValidUtf8 o.visibleBytes → ValidUtf8 (o.edge n fromHead)) := by
  cases fromHead with
  | true =>
    rw [if_pos rfl]
    obtain ⟨lost, hlost, _⟩ := trimTrailingPartial_lost (o.visibleBytes.take n)
    have hcut : o.edge n true <+: o.visibleBytes.take n := ⟨lost, hlost.symm⟩
    refine ⟨hcut.trans ( take_prefix _ _),
      fun _ => Nat.le_trans hcut.length_le (length_take_le _ _), fun hvalid => ?_⟩
    obtain ⟨front, part, htake, hfront, hpart⟩ := hvalid.take n
    rw [edge, htake, trimTrailingPartial_valid hfront hpart]
    exact hfront
  | false =>
    rw [if_neg (by decide)]
    have hcut : o.edge n false <:+ o.visibleBytes.drop (o.visibleBytes.length - n) :=
      trimLeadingFrom_suffix 3 _
    have hlength := hcut.length_le
    rw [length_drop] at hlength
    refine ⟨hcut.trans (drop_suffix _ _), fun _ => by omega, fun hvalid => ?_⟩
    obtain ⟨orphans, back, hdrop, hfew, hfollow, hback⟩ :=
      hvalid.drop (o.visibleBytes.length - n)
    rw [edge, hdrop, trimLeadingPartial, trimLeadingFrom_orphans hfew hfollow hback.head]
    exact hback

end OutputStore

variable {δ : Type} [DecidableEq δ] {sha256 : Bytes → δ} {ends : List AppendEnd} {o : OutputStore}

/-- The head and the tail are an end of what paging shows, the whole of it when it fits, and split
    no character of it. -/
theorem output_edges (h : OutputReached sha256 ends o) (hends : .replaced ∉ ends) (n : Nat)
    (fromHead : Bool) :
    ∃ buf, o.readEdge n fromHead = .ok (buf, o.total,
        decide (0 < o.visibleStart) || decide (n < o.visibleBytes.length)) ∧
      (if fromHead then buf <+: o.visibleBytes else buf <:+ o.visibleBytes) ∧ buf.length ≤ n ∧
      (o.visibleBytes.length ≤ n → buf = o.visibleBytes) ∧
      (ValidUtf8 o.visibleBytes → ValidUtf8 buf) := by
  obtain ⟨⟨stream, hsuffix⟩, hordered⟩ := h.spec
  refine ⟨_, hsuffix.placed.readEdge_eq (hordered hends) n fromHead, ?_⟩
  by_cases hall : o.visibleBytes.length ≤ n
  · rw [if_pos hall]
    refine ⟨?_, hall, fun _ => rfl, id⟩
    split
    · exact prefix_refl _
    · exact suffix_refl _
  · rw [if_neg hall]
    obtain ⟨hend, hlength, hvalid⟩ := o.edge_spec n fromHead
    exact ⟨hend, hlength (by omega), fun h => absurd h hall, hvalid⟩

/-- A tail of `hiddenHead`. -/
theorem output_edges_hiddenHead : ∃ buf, hiddenHead.readEdge 2 false = .ok (buf, 8, true) ∧
    buf <:+ hiddenHead.visibleBytes := by
  obtain ⟨buf, hread, hsuffix, _⟩ := output_edges hiddenHead_reached (by decide) 2 false
  exact ⟨buf, hread, hsuffix⟩

end Evener.Jobstore
