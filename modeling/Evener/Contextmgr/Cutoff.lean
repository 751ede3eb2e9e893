/-
  Where a compaction cuts a history.

  The cut is walked back so that what is kept does not begin inside a tool exchange (`Splits`);
  one implication is kept by every step of the walk (`walkBack_clear`).
-/
import Evener.Contextmgr.Records

namespace Evener.Contextmgr

open List Option

/-! ## The cut -/

def attentionTransparentTurnCount (history : List Turn) : Nat := history.countP Turn.visible

/-- The index of the `preserveRecent`-th visible turn from the end; the turns before the scan's
    place come newest first. -/
def recentFrom (preserveRecent : Int) : List Turn → Int → Nat
  | [], _ => 0
  | turn :: older, seen =>
    if turn.kind = .attentionResolution then recentFrom preserveRecent older seen
    else if seen + 1 = preserveRecent then older.length
    else recentFrom preserveRecent older (seen + 1)

def attentionTransparentRecentCutoff (history : List Turn) (preserveRecent : Int) : Nat :=
  if preserveRecent ≤ 0 then history.length
  else recentFrom preserveRecent history.reverse 0

/-- Whether steering follows the markers, and whether a tool result follows those. -/
def lookahead : List Turn → (crossedSteering : Bool) → Bool × Bool
  | [], crossed => (false, crossed)
  | turn :: rest, crossed =>
    if turn.kind.isMarker then lookahead rest crossed
    else if turn.kind = .steering then lookahead rest true
    else (turn.kind.isTool, crossed)

def walkBack (history : List Turn) (crossedSteering : Bool) : Nat → (tracing : Bool) → Nat
  | 0, _ => 0
  | cutoff + 1, tracing =>
    match history[cutoff + 1]? with
    | none => cutoff + 1
    | some turn =>
      if turn.kind.isTool then walkBack history crossedSteering cutoff true
      else if turn.kind = .steering ∨ (turn.kind.isMarker ∧ (tracing ∨ crossedSteering)) then
        walkBack history crossedSteering cutoff tracing
      else cutoff + 1

/-- `none` where the source has -1. -/
def safeCutoff (history : List Turn) (cutoff : Nat) : Option Nat :=
  let (tracing, crossed) := lookahead (history.drop cutoff) false
  let cutoff := walkBack history crossed cutoff tracing
  if cutoff = 0 then none else some cutoff

def foldCutoff (history : List Turn) (preserveRecent : Int) : Option Nat :=
  safeCutoff history (attentionTransparentRecentCutoff history preserveRecent)

/-! ## Pending questions -/

/-- The turn is the source of a pending question. -/
def CompactionMeta.holds (m : CompactionMeta) (turn : Turn) : Bool :=
  (turn.turnID != "" && m.pendingAskTurnIDs.contains turn.turnID) ||
    turn.content.any fun part =>
      part.toolCall.any fun id => id != "" && m.pendingAskCallIDs.contains id

def preserveFrom (preserveRecent : Int) (m : CompactionMeta) : List Turn → Int
  | [] => preserveRecent
  | turn :: rest =>
    if m.holds turn then max preserveRecent (attentionTransparentTurnCount (turn :: rest))
    else preserveFrom preserveRecent m rest

def preservePendingAskTail (history : List Turn) (preserveRecent : Int) :
    Option CompactionMeta → Int
  | none => preserveRecent
  | some m =>
    if m.pendingAskTurnIDs ≠ [] ∨ m.pendingAskCallIDs ≠ [] then
      preserveFrom preserveRecent m history
    else preserveRecent

/-! ## Inside an exchange -/

/-- After its markers the history begins with a tool result or with steering. -/
def Splits : List Turn → Bool
  | [] => false
  | turn :: rest =>
    if turn.kind.isMarker then Splits rest
    else turn.kind.isTool || turn.kind = .steering

theorem lookahead_crossed (l : List Turn) (crossed : Bool) (h : crossed = true) :
    (lookahead l crossed).2 = true := by
  fun_induction lookahead l crossed with
  | case1 => exact h
  | case2 _ _ _ _ ih => exact ih h
  | case3 _ _ _ _ _ ih => exact ih rfl
  | case4 => exact h

theorem lookahead_of_splits (l : List Turn) (crossed : Bool) (h : Splits l = true) :
    (lookahead l crossed).1 = true ∨ (lookahead l crossed).2 = true := by
  fun_induction lookahead l crossed with
  | case1 => exact nomatch h
  | case2 turn rest crossed hmarker ih =>
    rw [Splits, if_pos hmarker] at h
    exact ih h
  | case3 turn rest crossed hmarker hsteering ih => exact Or.inr (lookahead_crossed rest true rfl)
  | case4 turn rest crossed hmarker hsteering =>
    rw [Splits, if_neg hmarker] at h
    exact Or.inl (by simpa [hsteering] using h)

variable {l history : List Turn} {turn : Turn} {i c : Nat}

theorem drop_of_getElem? (h : l[i]? = some turn) : l.drop i = turn :: l.drop (i + 1) := by
  obtain ⟨hlt, rfl⟩ := List.getElem?_eq_some_iff.mp h
  exact drop_eq_getElem_cons hlt

/-- A walk that knows when it starts inside an exchange ends outside of one. -/
theorem walkBack_clear (history : List Turn) (crossed : Bool) (cutoff : Nat) (tracing : Bool)
    (h : Splits (history.drop cutoff) = true → tracing = true ∨ crossed = true)
    (hpos : walkBack history crossed cutoff tracing ≠ 0) :
    Splits (history.drop (walkBack history crossed cutoff tracing)) = false := by
  fun_induction walkBack history crossed cutoff tracing with
  | case1 => exact absurd rfl hpos
  | case2 cutoff tracing hnone =>
    rw [drop_eq_nil_of_le (List.getElem?_eq_none_iff.mp hnone)]
    rfl
  | case3 cutoff tracing turn hturn htool ih => exact ih (fun _ => Or.inl rfl) hpos
  | case4 cutoff tracing turn hturn htool hback ih =>
    refine ih (fun _ => ?_) hpos
    rcases hback with hsteering | ⟨_, hflags⟩
    · -- at steering the walk began inside the exchange, or came from inside it
      refine h ?_
      rw [drop_of_getElem? hturn, Splits, hsteering]
      rfl
    · exact hflags
  | case5 cutoff tracing turn hturn htool hstop =>
    push Not at hstop
    obtain ⟨hsteering, hmarker⟩ := hstop
    rw [Bool.eq_false_iff]
    intro hsplits
    have hflags := h hsplits
    rw [drop_of_getElem? hturn, Splits] at hsplits
    by_cases hm : turn.kind.isMarker = true
    · rcases hflags with htracing | hcrossed
      · exact (hmarker hm).1 htracing
      · exact (hmarker hm).2 hcrossed
    · rw [if_neg hm] at hsplits
      simp [htool, hsteering] at hsplits

theorem walkBack_le (history : List Turn) (crossed : Bool) (cutoff : Nat) (tracing : Bool) :
    walkBack history crossed cutoff tracing ≤ cutoff := by
  fun_induction walkBack history crossed cutoff tracing with
  | case1 => exact Nat.le_refl 0
  | case2 => exact Nat.le_refl _
  | case3 _ _ _ _ _ ih => exact Nat.le_succ_of_le ih
  | case4 _ _ _ _ _ _ ih => exact Nat.le_succ_of_le ih
  | case5 => exact Nat.le_refl _

theorem safeCutoff_spec {cutoff : Nat} (h : safeCutoff history cutoff = some c) :
    0 < c ∧ c ≤ cutoff ∧ Splits (history.drop c) = false := by
  unfold safeCutoff at h
  dsimp only at h
  split at h
  · cases h
  · next hpos =>
    cases h
    exact ⟨Nat.pos_of_ne_zero hpos, walkBack_le _ _ _ _,
      walkBack_clear history _ cutoff _ (lookahead_of_splits _ _) hpos⟩

/-! ## Counting visible turns -/

/-- The recent turns hold as many visible ones as were asked for, if there are so many. -/
theorem recentFrom_count (preserveRecent : Int) (older newer : List Turn) (seen : Int)
    (hseen : seen = attentionTransparentTurnCount newer) (hless : seen < preserveRecent)
    (hpos : recentFrom preserveRecent older seen ≠ 0) :
    attentionTransparentTurnCount
      ((older.reverse ++ newer).drop (recentFrom preserveRecent older seen)) = preserveRecent := by
  induction older generalizing newer seen with
  | nil => exact absurd rfl hpos
  | cons turn older ih =>
    rw [recentFrom] at hpos ⊢
    rw [reverse_cons, append_assoc, singleton_append]
    split
    · next hhidden =>
      rw [if_pos hhidden] at hpos
      refine ih (turn :: newer) seen ?_ hless hpos
      rw [attentionTransparentTurnCount, countP_cons_of_neg (by simp [Turn.visible, hhidden])]
      exact hseen
    · next hvisible =>
      have hcount : attentionTransparentTurnCount (turn :: newer) =
          attentionTransparentTurnCount newer + 1 :=
        countP_cons_of_pos (by simp [Turn.visible, hvisible])
      rw [if_neg hvisible] at hpos
      split
      · next hlast =>
        rw [drop_left' (length_reverse), hcount]
        omega
      · next hmore =>
        rw [if_neg hmore] at hpos
        exact ih (turn :: newer) (seen + 1) (by omega) (by omega) hpos

theorem recentFrom_le (preserveRecent : Int) (older : List Turn) (seen : Int) :
    recentFrom preserveRecent older seen ≤ older.length := by
  induction older generalizing seen with
  | nil => exact Nat.le_refl 0
  | cons turn older ih =>
    rw [recentFrom, length_cons]
    split
    · exact Nat.le_succ_of_le (ih seen)
    · split
      · exact Nat.le_succ _
      · exact Nat.le_succ_of_le (ih (seen + 1))

theorem recentCutoff_le (history : List Turn) (preserveRecent : Int) :
    attentionTransparentRecentCutoff history preserveRecent ≤ history.length := by
  unfold attentionTransparentRecentCutoff
  split
  · exact Nat.le_refl _
  · exact length_reverse ▸ recentFrom_le preserveRecent history.reverse 0

theorem recentCutoff_count (history : List Turn) (preserveRecent : Int)
    (hpos : attentionTransparentRecentCutoff history preserveRecent ≠ 0) :
    preserveRecent ≤ attentionTransparentTurnCount
      (history.drop (attentionTransparentRecentCutoff history preserveRecent)) := by
  unfold attentionTransparentRecentCutoff at hpos ⊢
  split
  · next hle => omega
  · next hgt =>
    rw [if_neg hgt] at hpos
    have hcount := recentFrom_count preserveRecent history.reverse [] 0 rfl (by omega) hpos
    rw [reverse_reverse, append_nil] at hcount
    exact Int.le_of_eq hcount.symm

/-- An older cut keeps at least as many visible turns. -/
theorem count_drop_le (history : List Turn) {c' : Nat} (h : c ≤ c') :
    attentionTransparentTurnCount (history.drop c') ≤
      attentionTransparentTurnCount (history.drop c) := by
  obtain ⟨k, rfl⟩ := Nat.exists_eq_add_of_le h
  rw [← drop_drop]
  exact (drop_sublist k _).countP_le

theorem foldCutoff_spec {preserveRecent : Int} (h : foldCutoff history preserveRecent = some c) :
    0 < c ∧ c ≤ history.length ∧ Splits (history.drop c) = false ∧
      preserveRecent ≤ attentionTransparentTurnCount (history.drop c) := by
  obtain ⟨hpos, hle, hclear⟩ := safeCutoff_spec h
  have hrecent := recentCutoff_count history preserveRecent (by omega)
  have hkept := count_drop_le history hle
  exact ⟨hpos, Nat.le_trans hle (recentCutoff_le _ _), hclear, by omega⟩

/-! ## Keeping exchanges and questions whole -/

/-- A kind that may stand between an assistant turn and the results of its calls. -/
def TurnKind.between (k : TurnKind) : Bool := k.isTool || k.isMarker || k = .steering

/-- Every tool result of the turn answers a tool call of the caller. -/
def Turn.answers (turn caller : Turn) : Prop :=
  ∀ part ∈ turn.content, ∀ id ∈ part.toolResult, ∃ call ∈ caller.content, call.toolCall = some id

/-- The turn at `a` is the assistant turn that called the results at `j`, with nothing between
    them that does not belong to an exchange. -/
structure CalledBy (history : List Turn) (j a : Nat) : Prop where
  earlier : a < j
  caller : ∃ caller turn, history[a]? = some caller ∧ history[j]? = some turn ∧
    caller.kind = .assistant ∧ turn.answers caller
  inside : ∀ m turn, a < m → m < j → history[m]? = some turn → turn.kind.between = true

theorem splits_of_tool {k : Nat} (h : l[k]? = some turn) (htool : turn.kind.isTool = true)
    (hinside : ∀ m t, m < k → l[m]? = some t → t.kind.between = true) : Splits l = true := by
  induction l generalizing k with
  | nil => exact nomatch h
  | cons first rest ih =>
    rw [Splits]
    cases k with
    | zero =>
      obtain rfl := some.inj h
      have hmarker : ¬ first.kind.isMarker = true := by
        intro hmarker
        simp only [TurnKind.isMarker, Bool.or_eq_true, decide_eq_true_eq] at hmarker
        rcases hmarker with hkind | hkind
        · rw [hkind] at htool
          exact nomatch htool
        · rw [hkind] at htool
          exact nomatch htool
      rw [if_neg hmarker, htool]
      rfl
    | succ k =>
      have hfirst := hinside 0 first (Nat.succ_pos k) rfl
      split
      · exact ih h fun m t hm ht => hinside (m + 1) t (Nat.succ_lt_succ hm) ht
      · next hmarker =>
        simpa [TurnKind.between, hmarker] using hfirst

/-- What is kept from a place outside of every exchange holds the callers of its results. -/
theorem callers_kept {j a : Nat} (hclear : Splits (history.drop c) = false)
    (hcalled : CalledBy history j a) (hj : c ≤ j) (hturn : history[j]? = some turn)
    (htool : turn.kind.isTool = true) : c ≤ a := by
  by_contra hbefore
  have hsplits : Splits (history.drop c) = true := by
    refine splits_of_tool (k := j - c) (?_ : _ = some turn) htool fun m t hm ht => ?_
    · rw [getElem?_drop, Nat.add_sub_cancel' hj]
      exact hturn
    · rw [getElem?_drop] at ht
      exact hcalled.inside (c + m) t (by omega) (by omega) ht
  rw [hclear] at hsplits
  exact nomatch hsplits

theorem preserveRecent_le (preserveRecent : Int) (m : CompactionMeta) (history : List Turn) :
    preserveRecent ≤ preserveFrom preserveRecent m history := by
  induction history with
  | nil => exact Int.le_refl _
  | cons turn rest ih =>
    rw [preserveFrom]
    split
    · exact Int.le_max_left _ _
    · exact ih

/-- The tail that is asked for reaches back to every visible source of a pending question. -/
theorem preserveFrom_count (preserveRecent : Int) (m : CompactionMeta)
    (hturn : history[i]? = some turn) (hholds : m.holds turn = true) :
    (attentionTransparentTurnCount (history.drop i) : Int) ≤
      preserveFrom preserveRecent m history := by
  induction history generalizing i with
  | nil => exact nomatch hturn
  | cons first rest ih =>
    rw [preserveFrom]
    split
    · have hwhole := count_drop_le (first :: rest) (Nat.zero_le i)
      rw [drop_zero] at hwhole
      omega
    · next hother =>
      cases i with
      | zero =>
        obtain rfl := some.inj hturn
        exact absurd hholds hother
      | succ i => exact ih hturn

theorem preservePendingAskTail_le (history : List Turn) (preserveRecent : Int)
    (m : Option CompactionMeta) :
    preserveRecent ≤ preservePendingAskTail history preserveRecent m := by
  unfold preservePendingAskTail
  split
  · exact Int.le_refl _
  · split
    · exact preserveRecent_le _ _ _
    · exact Int.le_refl _

theorem preservePendingAskTail_count (preserveRecent : Int) {m : CompactionMeta}
    (hturn : history[i]? = some turn) (hholds : m.holds turn = true) :
    (attentionTransparentTurnCount (history.drop i) : Int) ≤
      preservePendingAskTail history preserveRecent (some m) := by
  unfold preservePendingAskTail
  dsimp only
  rw [if_pos]
  · exact preserveFrom_count preserveRecent m hturn hholds
  · -- a turn can only match an id that is there
    by_contra hnone
    push Not at hnone
    rw [CompactionMeta.holds, hnone.1, hnone.2] at hholds
    simp at hholds

/-- The cut leaves every exchange and every visible source of a pending question whole. -/
structure SafeCut (history : List Turn) (preserveRecent : Int) (m : Option CompactionMeta)
    (c : Nat) : Prop where
  pos : 0 < c
  le : c ≤ history.length
  head : ∀ turn, (history.drop c).head? = some turn →
    turn.kind.isTool = false ∧ turn.kind ≠ .steering
  unmarked : ∀ turn, ((history.drop c).dropWhile fun t => t.kind.isMarker).head? = some turn →
    turn.kind.isTool = false ∧ turn.kind ≠ .steering
  callers : ∀ j turn, c ≤ j → history[j]? = some turn → turn.kind.isTool = true →
    (∃ a, CalledBy history j a) ∧ ∀ a, CalledBy history j a → c ≤ a
  recent : preserveRecent ≤ attentionTransparentTurnCount (history.drop c)
  pending : ∀ m' ∈ m, ∀ i turn, history[i]? = some turn → m'.holds turn = true →
    turn.visible = true → c ≤ i

theorem clear_unmarked (h : Splits l = false) (turn : Turn)
    (hturn : (l.dropWhile fun t => t.kind.isMarker).head? = some turn) :
    turn.kind.isTool = false ∧ turn.kind ≠ .steering := by
  induction l with
  | nil => exact nomatch hturn
  | cons first rest ih =>
    rw [Splits] at h
    split at h
    · next hmarker =>
      rw [dropWhile_cons_of_pos (p := fun t : Turn => t.kind.isMarker) hmarker] at hturn
      exact ih h hturn
    · next hmarker =>
      rw [dropWhile_cons_of_neg (by simpa using hmarker)] at hturn
      obtain rfl := some.inj hturn
      simpa using h

theorem clear_head (h : Splits l = false) (turn : Turn) (hturn : l.head? = some turn) :
    turn.kind.isTool = false ∧ turn.kind ≠ .steering := by
  cases l with
  | nil => exact nomatch hturn
  | cons first rest =>
    obtain rfl := some.inj hturn
    by_cases hmarker : first.kind.isMarker = true
    · simp only [TurnKind.isMarker, Bool.or_eq_true, decide_eq_true_eq] at hmarker
      rcases hmarker with hkind | hkind
      · rw [hkind]
        decide
      · rw [hkind]
        decide
    · refine clear_unmarked h first ?_
      rw [dropWhile_cons_of_neg (by simpa using hmarker)]
      rfl

theorem foldCutoff_safe (history : List Turn) (preserveRecent : Int) (m : Option CompactionMeta)
    (hcalled : ∀ j turn, history[j]? = some turn → turn.kind.isTool = true →
      ∃ a, CalledBy history j a) (c : Nat)
    (h : foldCutoff history (preservePendingAskTail history preserveRecent m) = some c) :
    SafeCut history preserveRecent m c := by
  obtain ⟨hpos, hle, hclear, hrecent⟩ := foldCutoff_spec h
  refine ⟨hpos, hle, clear_head hclear, clear_unmarked hclear, fun j turn hj hturn htool => ?_, ?_,
    fun m' hm i turn hturn hholds hvisible => ?_⟩
  · exact ⟨hcalled j turn hturn htool, fun a ha => callers_kept hclear ha hj hturn htool⟩
  · exact Int.le_trans (preservePendingAskTail_le history preserveRecent m) hrecent
  · obtain rfl := Option.mem_def.mp hm
    have htail := preservePendingAskTail_count preserveRecent hturn hholds
    -- behind the source there are fewer visible turns than from it on
    by_contra hbehind
    have hdrop : i + 1 ≤ c := by omega
    have hlater := count_drop_le history hdrop
    have hhere : attentionTransparentTurnCount (history.drop i) =
        attentionTransparentTurnCount (history.drop (i + 1)) + 1 := by
      rw [drop_of_getElem? hturn]
      exact countP_cons_of_pos hvisible
    omega

/-- A question that is asked, answered by a tool result and followed by markers. -/
def askHistory : List Turn :=
  [{ kind := .userInput, turnID := "t1" },
    { kind := .assistant, turnID := "t2", content := [{ toolCall := some "ask" }] },
    { kind := .hookCompleted }, { kind := .steering },
    { kind := .toolResults, content := [{ toolResult := some "ask" }] },
    { kind := .attentionResolution, turnID := "t3" }, { kind := .userInput, turnID := "t4" }]

theorem askHistory_called (j : Nat) (turn : Turn) (hturn : askHistory[j]? = some turn)
    (htool : turn.kind.isTool = true) : ∃ a, CalledBy askHistory j a := by
  have hj : j = 4 := by
    have hall : ∀ k : Fin 7, (askHistory.get k).kind.isTool = true → k = 4 := by decide
    obtain ⟨hlt, rfl⟩ := List.getElem?_eq_some_iff.mp hturn
    exact congrArg Fin.val (hall ⟨j, hlt⟩ htool)
  subst hj
  refine ⟨1, by decide, ⟨_, _, rfl, rfl, rfl, ?_⟩, fun k t hk hk' ht => ?_⟩
  · unfold Turn.answers
    decide
  · obtain rfl | rfl : k = 2 ∨ k = 3 := by omega
    · cases ht
      rfl
    · cases ht
      rfl

theorem foldCutoff_safe_ask :
    foldCutoff askHistory (preservePendingAskTail askHistory 3 (some { pendingAskCallIDs := ["ask"] })) = some 1 ∧
      SafeCut askHistory 3 (some { pendingAskCallIDs := ["ask"] }) 1 :=
  ⟨by decide, foldCutoff_safe askHistory 3 _ askHistory_called 1 (by decide)⟩

/-- A marker that alone has the id of a pending question is cut off. -/
theorem foldCutoff_drops_marker :
    (∀ j turn, askHistory[j]? = some turn → turn.kind.isTool = true →
      ∃ a, CalledBy askHistory j a) ∧
    foldCutoff askHistory (preservePendingAskTail askHistory 0 (some { pendingAskTurnIDs := ["t3"] })) = some 6 ∧
    ∃ turn, askHistory[5]? = some turn ∧ CompactionMeta.holds { pendingAskTurnIDs := ["t3"] } turn = true :=
  ⟨askHistory_called, by decide, _, rfl, by decide⟩

end Evener.Contextmgr
