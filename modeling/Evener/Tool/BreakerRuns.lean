/-
  The ledger against the history of its operations: a fingerprint's failure streak and an exact
  call's repeat streak are told from the history alone.
-/
import Evener.Tool.Breaker
import Mathlib.Data.List.Induction

namespace Evener.Tool.Breaker
open Evener.Lib List Function

/-! ## What the history tells -/

/-- What an operation says of a fingerprint: a failure with its output, or the end of a run. -/
def Op.outcome? (k : String) : Op → Option (Option String)
  | .check _ => none
  | .record key isErr output =>
    if key.semantic = k then some (if isErr then some output else none) else none
  | .clearFailures key => if key.semantic = k then some none else none

/-- The body an operation records for an exact call. -/
def Op.body? (k : String) : Op → Option String
  | .record key _ output => if key.exact = k then some output else none
  | _ => none

/-- The latest value and those right behind it that are like it. -/
def likeFirst {α : Type} (like : α → α → Bool) : List α → List α
  | [] => []
  | a :: rest => a :: rest.takeWhile (like a)

/-- The failures since the last success or clear, the latest first. -/
def failures (history : List Op) (k : String) : List String :=
  ((history.filterMap (·.outcome? k)).reverse.takeWhile (·.isSome)).filterMap id

/-- The latest failures that are of one class. -/
def failRun (rt : Runtime) (history : List Op) (k : String) : List String :=
  likeFirst (fun a b => errorClass rt b = errorClass rt a) (failures history k)

/-- The bodies of an exact call, the latest first. -/
def bodies (history : List Op) (k : String) : List String :=
  (history.filterMap (·.body? k)).reverse

/-- The latest results with an identical body. -/
def repeatRun (history : List Op) (k : String) : List String :=
  likeFirst (fun a b => b = a) (bodies history k)

/-- The answer of a ledger that forgets nothing. -/
def told (rt : Runtime) (history : List Op) (op : Op) : Judgement :=
  match op with
  | .check key =>
    { failStreak := (failRun rt history key.semantic).length
      repeatStreak := (repeatRun history key.exact).length
      snippets := (((failRun rt history key.semantic).take maxFailureSnippets).reverse.map
        (truncateRunes · maxFailureSnippetRunes)) }
  | .record key _ _ =>
    { failStreak := (failRun rt (history ++ [op]) key.semantic).length
      repeatStreak := (repeatRun (history ++ [op]) key.exact).length }
  | .clearFailures _ => {}

/-- The fingerprints used: one that fails, and one that has failed before. -/
def semanticLog (history : List Op) : List String :=
  history.foldl (fun log op =>
    match op with
    | .check _ => log
    | .record key isErr _ => if isErr ∨ key.semantic ∈ log then log ++ [key.semantic] else log
    | .clearFailures key => if key.semantic ∈ log then log ++ [key.semantic] else log) []

/-- The exact calls used: one that is recorded, and one that has been recorded before. -/
def exactLog (history : List Op) : List String :=
  history.foldl (fun log op =>
    match op with
    | .check _ => log
    | .record key _ _ => log ++ [key.exact]
    | .clearFailures key => if key.exact ∈ log then log ++ [key.exact] else log) []

/-- Fewer than 512 other keys are used behind the last use of `key`. -/
def Near (log : List String) (key : String) : Prop :=
  key ∈ log → (log.reverse.takeWhile (· ≠ key)).dedup.length < maxFailureLedgerEntries

instance (log : List String) (key : String) : Decidable (Near log key) :=
  inferInstanceAs (Decidable (_ → _))

/-- Every operation names keys that are near. -/
def Spaced (ops : List Op) : Prop :=
  ∀ earlier op later, ops = earlier ++ op :: later →
    Near (semanticLog earlier) op.key.semantic ∧ Near (exactLog earlier) op.key.exact

def Op.output? : Op → Option String
  | .record _ _ output => some output
  | _ => none

/-- No two bodies recorded share a hash. -/
def Collisionless (rt : Runtime) (ops : List Op) : Prop :=
  ∀ a ∈ ops.filterMap Op.output?, ∀ b ∈ ops.filterMap Op.output?,
    shortHash rt (utf8 a) = shortHash rt (utf8 b) → a = b

/-! ## One more operation -/

theorem failures_append (history : List Op) (op : Op) (k : String) :
    failures (history ++ [op]) k =
      match op.outcome? k with
      | none => failures history k
      | some none => []
      | some (some output) => output :: failures history k := by
  unfold failures
  rw [filterMap_append, reverse_append]
  match h : op.outcome? k with
  | none => simp [h]
  | some none => simp [h]
  | some (some output) => simp [h]

theorem bodies_append (history : List Op) (op : Op) (k : String) :
    bodies (history ++ [op]) k =
      match op.body? k with
      | none => bodies history k
      | some output => output :: bodies history k := by
  unfold bodies
  rw [filterMap_append, reverse_append]
  cases h : op.body? k <;> simp [h]

/-- One more value on a run: it goes on when the value is like the latest one under `f`. -/
def extendRun {α β : Type} [DecidableEq β] (f : α → β) (a : α) : List α → List α
  | [] => [a]
  | b :: rest => if f b = f a then a :: b :: rest else [a]

theorem likeFirst_cons {α β : Type} [DecidableEq β] (f : α → β) (a : α) (l : List α) :
    likeFirst (fun a b => decide (f b = f a)) (a :: l) =
      extendRun f a (likeFirst (fun a b => decide (f b = f a)) l) := by
  cases l with
  | nil => rfl
  | cons b l => by_cases h : f b = f a <;> simp [likeFirst, extendRun, h]

theorem semanticLog_append (history : List Op) (op : Op) :
    semanticLog (history ++ [op]) =
      match op with
      | .check _ => semanticLog history
      | .record key isErr _ =>
        if isErr ∨ key.semantic ∈ semanticLog history then semanticLog history ++ [key.semantic]
        else semanticLog history
      | .clearFailures key =>
        if key.semantic ∈ semanticLog history then semanticLog history ++ [key.semantic]
        else semanticLog history := by
  unfold semanticLog
  rw [foldl_append]
  rfl

theorem exactLog_append (history : List Op) (op : Op) :
    exactLog (history ++ [op]) =
      match op with
      | .check _ => exactLog history
      | .record key _ _ => exactLog history ++ [key.exact]
      | .clearFailures key =>
        if key.exact ∈ exactLog history then exactLog history ++ [key.exact]
        else exactLog history := by
  unfold exactLog
  rw [foldl_append]
  rfl

/-- A fingerprint that was never used has no failures. -/
theorem failures_of_not_mem (history : List Op) (k : String) (h : k ∉ semanticLog history) :
    failures history k = [] := by
  induction history using List.reverseRecOn with
  | nil => rfl
  | append_singleton history op ih =>
    rw [semanticLog_append] at h
    rw [failures_append]
    cases op with
    | check key => exact ih h
    | record key isErr output =>
      by_cases hkey : key.semantic = k
      · cases isErr with
        | false => simp [Op.outcome?, hkey]
        | true => simp [hkey] at h
      · have hold : k ∉ semanticLog history := by
          intro hmem
          apply h
          dsimp only
          split
          · exact mem_append_left _ hmem
          · exact hmem
        simpa [Op.outcome?, hkey] using ih hold
    | clearFailures key =>
      by_cases hkey : key.semantic = k
      · simp [Op.outcome?, hkey]
      · have hold : k ∉ semanticLog history := by
          intro hmem
          apply h
          dsimp only
          split
          · exact mem_append_left _ hmem
          · exact hmem
        simpa [Op.outcome?, hkey] using ih hold

theorem bodies_of_not_mem (history : List Op) (k : String) (h : k ∉ exactLog history) :
    bodies history k = [] := by
  induction history using List.reverseRecOn with
  | nil => rfl
  | append_singleton history op ih =>
    rw [exactLog_append] at h
    rw [bodies_append]
    cases op with
    | check key => exact ih h
    | record key isErr output =>
      have hkey : key.exact ≠ k := fun heq => h (heq ▸ by simp)
      have hold : k ∉ exactLog history := fun hmem => h (mem_append_left _ hmem)
      simpa [Op.body?, hkey] using ih hold
    | clearFailures key =>
      have hold : k ∉ exactLog history := by
        intro hmem
        apply h
        dsimp only
        split
        · exact mem_append_left _ hmem
        · exact hmem
      exact ih hold

/-! ## The entries of a ledger that forgets nothing -/

def semanticEntry (rt : Runtime) (history : List Op) (k : String) : FailureEntry where
  cls := ((failRun rt history k).head?.map (errorClass rt)).getD ""
  count := (failRun rt history k).length
  snippets := ((failRun rt history k).take maxFailureSnippets).reverse.map
    (truncateRunes · maxFailureSnippetRunes)

/-- The latest bodies of one hash. -/
def hashRun (rt : Runtime) (history : List Op) (k : String) : List String :=
  likeFirst (fun a b => shortHash rt (utf8 b) = shortHash rt (utf8 a)) (bodies history k)

def exactEntry (rt : Runtime) (history : List Op) (k : String) : FailureEntry where
  bodyHash := ((hashRun rt history k).head?.map fun body => shortHash rt (utf8 body)).getD ""
  bodyCount := (hashRun rt history k).length

theorem hexEncode_ne_empty {bytes : List UInt8} (h : bytes ≠ []) : hexEncode bytes ≠ "" := by
  cases bytes with
  | nil => exact absurd rfl h
  | cons b bytes =>
    intro heq
    have hlist := congrArg String.toList heq
    simp [hexEncode] at hlist

theorem errorClass_ne_empty (rt : Runtime) (output : String) : errorClass rt output ≠ "" := by
  refine hexEncode_ne_empty (ne_nil_of_length_pos ?_)
  rw [length_take, Vector.length_toList]
  decide

theorem shortHash_ne_empty (rt : Runtime) (b : Bytes) : shortHash rt b ≠ "" := by
  refine hexEncode_ne_empty (ne_nil_of_length_pos ?_)
  rw [length_take, Vector.length_toList]
  decide

variable {k : String} {history : List Op} {op : Op} {l : FailureLedger}

theorem failRun_of_not_mem (rt : Runtime) (h : k ∉ semanticLog history) :
    failRun rt history k = [] := by
  rw [failRun, failures_of_not_mem history k h]
  rfl

theorem hashRun_of_not_mem (rt : Runtime) (h : k ∉ exactLog history) :
    hashRun rt history k = [] := by
  rw [hashRun, bodies_of_not_mem history k h]
  rfl

theorem semanticEntry_of_not_mem (rt : Runtime) (h : k ∉ semanticLog history) :
    semanticEntry rt history k = {} := by
  rw [semanticEntry, failRun_of_not_mem rt h]
  rfl

theorem exactEntry_of_not_mem (rt : Runtime) (h : k ∉ exactLog history) :
    exactEntry rt history k = {} := by
  rw [exactEntry, hashRun_of_not_mem rt h]
  rfl

/-- A run of failures after one more outcome. -/
theorem failRun_append (rt : Runtime) (history : List Op) (op : Op) (k : String) :
    failRun rt (history ++ [op]) k =
      match op.outcome? k with
      | none => failRun rt history k
      | some none => []
      | some (some output) => extendRun (errorClass rt) output (failRun rt history k) := by
  unfold failRun
  rw [failures_append]
  match op.outcome? k with
  | none => rfl
  | some none => rfl
  | some (some output) => exact likeFirst_cons (errorClass rt) output (failures history k)

theorem hashRun_append (rt : Runtime) (history : List Op) (op : Op) (k : String) :
    hashRun rt (history ++ [op]) k =
      match op.body? k with
      | none => hashRun rt history k
      | some output =>
        extendRun (fun body => shortHash rt (utf8 body)) output (hashRun rt history k) := by
  unfold hashRun
  rw [bodies_append]
  cases op.body? k with
  | none => rfl
  | some output => exact likeFirst_cons (fun body => shortHash rt (utf8 body)) output _

/-- An entry observes a result as the history tells it. -/
theorem observeFailure_semanticEntry (rt : Runtime) (history : List Op) (key : DispatchKey)
    (isErr : Bool) (output : String) :
    observeFailure rt (semanticEntry rt history key.semantic) isErr output =
      semanticEntry rt (history ++ [.record key isErr output]) key.semantic := by
  have happend := failRun_append rt history (.record key isErr output) key.semantic
  simp only [Op.outcome?] at happend
  unfold observeFailure semanticEntry
  rw [happend]
  cases isErr with
  | false => rfl
  | true =>
    simp only [if_true]
    match failRun rt history key.semantic with
    | [] => simp [extendRun, errorClass_ne_empty rt output |>.symm, maxFailureSnippets]
    | [latest] =>
      by_cases hclass : errorClass rt latest = errorClass rt output <;>
        simp [extendRun, hclass, maxFailureSnippets]
    | latest :: second :: rest =>
      by_cases hclass : errorClass rt latest = errorClass rt output <;>
        simp [extendRun, hclass, maxFailureSnippets]

theorem observeBody_exactEntry (rt : Runtime) (history : List Op) (key : DispatchKey)
    (isErr : Bool) (output : String) :
    observeBody rt (exactEntry rt history key.exact) output =
      exactEntry rt (history ++ [.record key isErr output]) key.exact := by
  have happend := hashRun_append rt history (.record key isErr output) key.exact
  simp only [Op.body?] at happend
  unfold observeBody exactEntry
  rw [happend]
  simp only [if_true]
  match hashRun rt history key.exact with
  | [] => simp [extendRun, shortHash_ne_empty rt (utf8 output) |>.symm]
  | latest :: rest =>
    by_cases hhash : shortHash rt (utf8 latest) = shortHash rt (utf8 output) <;>
      simp [extendRun, hhash]

/-- The entries of other keys stay. -/
theorem semanticEntry_other (rt : Runtime) (history : List Op) (h : op.outcome? k = none) :
    semanticEntry rt (history ++ [op]) k = semanticEntry rt history k := by
  unfold semanticEntry
  rw [failRun_append, h]

theorem exactEntry_other (rt : Runtime) (history : List Op) (h : op.body? k = none) :
    exactEntry rt (history ++ [op]) k = exactEntry rt history k := by
  unfold exactEntry
  rw [hashRun_append, h]

/-- A success or a clear leaves an empty entry. -/
theorem semanticEntry_ended (rt : Runtime) (history : List Op) (h : op.outcome? k = some none) :
    semanticEntry rt (history ++ [op]) k = {} := by
  unfold semanticEntry
  rw [failRun_append, h]
  rfl

/-! ## The stores hold the entries of the last keys -/

/-- A near key is held exactly when it was used. -/
theorem entries_near {s : Recency String FailureEntry} {log : List String}
    {value : String → FailureEntry} (h : s.Holds maxFailureLedgerEntries log value) {key : String}
    (hnear : Near log key) :
    s.entries key = if key ∈ log then some (value key) else none := by
  rw [h.entries]
  by_cases hk : key ∈ log
  · rw [if_pos hk, if_pos (h.mem_order (hnear hk) hk)]
  · rw [if_neg hk, if_neg fun hin => hk (h.mem_log hin)]

/-- What a recorded result leaves in the semantic store. -/
theorem record_semantic (rt : Runtime) (l : FailureLedger) (key : DispatchKey) (isErr : Bool)
    (output : String) :
    (l.record rt key isErr output).1.semantic =
      if l.semantic.entries key.semantic = none ∧ isErr = false then l.semantic
      else l.semantic.put maxFailureLedgerEntries key.semantic
        (observeFailure rt ((l.semantic.entries key.semantic).getD {}) isErr output) := by
  unfold FailureLedger.record
  cases l.semantic.entries key.semantic <;> cases isErr <;> simp

theorem semantic_step (rt : Runtime)
    (h : l.semantic.Holds maxFailureLedgerEntries (semanticLog history) (semanticEntry rt history))
    (hnear : Near (semanticLog history) op.key.semantic) :
    (l.step rt op).1.semantic.Holds maxFailureLedgerEntries (semanticLog (history ++ [op]))
      (semanticEntry rt (history ++ [op])) := by
  have hbound : 0 < maxFailureLedgerEntries := by decide
  rw [semanticLog_append]
  cases op with
  | check key =>
    exact h.congr fun k _ => (semanticEntry_other rt history (by rfl)).symm
  | record key isErr output =>
    have hother : ∀ k, k ≠ key.semantic →
        semanticEntry rt history k = semanticEntry rt (history ++ [.record key isErr output]) k :=
      fun k hk => (semanticEntry_other rt history (by simp [Op.outcome?, Ne.symm hk])).symm
    have hput : ∀ (hin : key.semantic ∈ semanticLog history → key.semantic ∈ l.semantic.order),
        (l.semantic.put maxFailureLedgerEntries key.semantic
          (semanticEntry rt (history ++ [.record key isErr output]) key.semantic)).Holds
          maxFailureLedgerEntries (semanticLog history ++ [key.semantic])
          (semanticEntry rt (history ++ [.record key isErr output])) := by
      intro hin
      refine Recency.Holds.congr (h.put hbound hin _) fun k _ => ?_
      by_cases hk : k = key.semantic
      · subst hk
        rw [update_self]
      · rw [update_of_ne hk, hother k hk]
    have hobserve := observeFailure_semanticEntry rt history key isErr output
    replace hnear : Near (semanticLog history) key.semantic := hnear
    have hheld := entries_near h hnear
    rw [show (l.step rt (.record key isErr output)).1 = (l.record rt key isErr output).1 from rfl,
      record_semantic]
    by_cases hk : key.semantic ∈ semanticLog history
    · rw [if_pos hk] at hheld
      rw [hheld, if_neg (by simp), Option.getD_some, hobserve]
      simp only [hk, or_true, if_true]
      exact hput fun _ => h.mem_order (hnear hk) hk
    · rw [if_neg hk] at hheld
      rw [hheld]
      cases isErr with
      | false =>
        simp only [hk, and_self, if_true, Bool.false_eq_true, or_self, if_false]
        refine h.congr fun k hmem => hother k ?_
        rintro rfl
        exact hk hmem
      | true =>
        rw [semanticEntry_of_not_mem rt hk] at hobserve
        rw [if_neg (by simp), Option.getD_none, hobserve]
        simp only [true_or, if_true]
        exact hput fun hin => absurd hin hk
  | clearFailures key =>
    have hother : ∀ k, k ≠ key.semantic →
        semanticEntry rt history k = semanticEntry rt (history ++ [.clearFailures key]) k :=
      fun k hk => (semanticEntry_other rt history (by simp [Op.outcome?, Ne.symm hk])).symm
    replace hnear : Near (semanticLog history) key.semantic := hnear
    have hheld := entries_near h hnear
    simp only [FailureLedger.step, FailureLedger.clearFailures]
    by_cases hk : key.semantic ∈ semanticLog history
    · rw [if_pos hk] at hheld
      rw [hheld, if_pos hk]
      refine Recency.Holds.congr (h.put hbound (fun _ => h.mem_order (hnear hk) hk) _)
        fun k _ => ?_
      by_cases hkey : k = key.semantic
      · subst hkey
        rw [update_self, semanticEntry_ended rt history (by simp [Op.outcome?])]
        rfl
      · rw [update_of_ne hkey, hother k hkey]
    · rw [if_neg hk] at hheld
      rw [hheld, if_neg hk]
      refine h.congr fun k hmem => hother k ?_
      rintro rfl
      exact hk hmem

theorem exact_step (rt : Runtime)
    (h : l.exact.Holds maxFailureLedgerEntries (exactLog history) (exactEntry rt history))
    (hnear : Near (exactLog history) op.key.exact) :
    (l.step rt op).1.exact.Holds maxFailureLedgerEntries (exactLog (history ++ [op]))
      (exactEntry rt (history ++ [op])) := by
  have hbound : 0 < maxFailureLedgerEntries := by decide
  rw [exactLog_append]
  cases op with
  | check key =>
    exact h.congr fun k _ => (exactEntry_other rt history (by rfl)).symm
  | record key isErr output =>
    replace hnear : Near (exactLog history) key.exact := hnear
    have hheld := entries_near h hnear
    have hentry : (l.step rt (.record key isErr output)).1.exact =
        l.exact.put maxFailureLedgerEntries key.exact
          (exactEntry rt (history ++ [.record key isErr output]) key.exact) := by
      have hget : (l.exact.entries key.exact).getD {} = exactEntry rt history key.exact := by
        rw [hheld]
        by_cases hk : key.exact ∈ exactLog history
        · rw [if_pos hk, Option.getD_some]
        · rw [if_neg hk, exactEntry_of_not_mem rt hk, Option.getD_none]
      unfold FailureLedger.step FailureLedger.record
      dsimp only
      rw [hget, observeBody_exactEntry rt history key isErr output]
      split <;> rfl
    rw [hentry]
    refine Recency.Holds.congr (h.put hbound (fun hk => h.mem_order (hnear hk) hk) _) fun k _ => ?_
    by_cases hkey : k = key.exact
    · subst hkey
      rw [update_self]
    · rw [update_of_ne hkey]
      exact (exactEntry_other rt history (by simp [Op.body?, Ne.symm hkey])).symm
  | clearFailures key =>
    replace hnear : Near (exactLog history) key.exact := hnear
    have hheld := entries_near h hnear
    have hsame : ∀ k, exactEntry rt history k = exactEntry rt (history ++ [.clearFailures key]) k :=
      fun k => (exactEntry_other rt history (by rfl)).symm
    simp only [FailureLedger.step, FailureLedger.clearFailures]
    by_cases hk : key.exact ∈ exactLog history
    · rw [if_pos hk] at hheld
      rw [hheld, if_neg (by simp), if_pos hk, Recency.touch_known hheld]
      refine Recency.Holds.congr (h.put hbound (fun _ => h.mem_order (hnear hk) hk) _)
        fun k _ => ?_
      by_cases hkey : k = key.exact
      · subst hkey
        rw [update_self, hsame]
      · rw [update_of_ne hkey, hsame]
    · rw [if_neg hk] at hheld
      rw [hheld, if_pos rfl, if_neg hk]
      exact h.congr fun k _ => hsame k

theorem Spaced.append {ops : List Op} (h : Spaced (ops ++ [op])) :
    Spaced ops ∧ Near (semanticLog ops) op.key.semantic ∧ Near (exactLog ops) op.key.exact :=
  ⟨fun earlier op' later heq => h earlier op' (later ++ [op]) (by rw [heq]; simp),
    h ops op [] rfl⟩

theorem run_append (rt : Runtime) (ops : List Op) (op : Op) :
    run rt (ops ++ [op]) = ((run rt ops).step rt op).1 := by
  unfold run
  rw [foldl_append]
  rfl

theorem holds_run (rt : Runtime) (ops : List Op) (h : Spaced ops) :
    (run rt ops).semantic.Holds maxFailureLedgerEntries (semanticLog ops) (semanticEntry rt ops) ∧
      (run rt ops).exact.Holds maxFailureLedgerEntries (exactLog ops) (exactEntry rt ops) := by
  induction ops using List.reverseRecOn with
  | nil => exact ⟨Recency.holds_empty _ _, Recency.holds_empty _ _⟩
  | append_singleton ops op ih =>
    obtain ⟨hops, hsemantic, hexact⟩ := h.append
    rw [run_append]
    exact ⟨semantic_step rt (ih hops).1 hsemantic, exact_step rt (ih hops).2 hexact⟩

/-! ## The answers -/

theorem wellKept_step (rt : Runtime)
    (h : l.exact.WellKept maxFailureLedgerEntries ∧ l.semantic.WellKept maxFailureLedgerEntries)
    (op : Op) :
    (l.step rt op).1.exact.WellKept maxFailureLedgerEntries ∧
      (l.step rt op).1.semantic.WellKept maxFailureLedgerEntries := by
  have hbound : 0 < maxFailureLedgerEntries := by decide
  cases op with
  | check key => exact h
  | record key isErr output =>
    refine ⟨?_, ?_⟩
    · unfold FailureLedger.step FailureLedger.record
      dsimp only
      split <;> exact h.1.put hbound _ _
    · rw [show (l.step rt (.record key isErr output)).1 = (l.record rt key isErr output).1 from rfl,
        record_semantic]
      split
      · exact h.2
      · exact h.2.put hbound _ _
  | clearFailures key =>
    unfold FailureLedger.step FailureLedger.clearFailures
    refine ⟨?_, ?_⟩
    · dsimp only
      split
      · exact h.1
      · next hheld =>
        obtain ⟨e, he⟩ := Option.ne_none_iff_exists'.mp hheld
        rw [Recency.touch_known he]
        exact h.1.put hbound _ _
    · dsimp only
      split
      · exact h.2
      · exact h.2.put hbound _ _

theorem wellKept_run (rt : Runtime) (ops : List Op) :
    (run rt ops).exact.WellKept maxFailureLedgerEntries ∧
      (run rt ops).semantic.WellKept maxFailureLedgerEntries := by
  induction ops using List.reverseRecOn with
  | nil => exact ⟨Recency.wellKept_empty _, Recency.wellKept_empty _⟩
  | append_singleton ops op ih =>
    rw [run_append]
    exact wellKept_step rt ih op

/-- A success takes no fingerprint out of the semantic store. -/
theorem success_keeps (rt : Runtime) (h : l.semantic.WellKept maxFailureLedgerEntries)
    (key : DispatchKey) (output : String) (k : String) :
    (l.record rt key false output).1.semantic.entries k = none ↔ l.semantic.entries k = none := by
  rw [record_semantic]
  cases hheld : l.semantic.entries key.semantic with
  | none => simp
  | some e =>
    rw [if_neg (by simp), h.put_known ((h.keys _).mpr (by simp [hheld]))]
    by_cases hk : k = key.semantic
    · subst hk
      simp [hheld]
    · rw [update_of_ne hk]

/-- Without a collision, bodies of one hash are one body. -/
theorem hashRun_eq_repeatRun {rt : Runtime} (h : Collisionless rt history) (k : String) :
    hashRun rt history k = repeatRun history k := by
  have hmem : ∀ body ∈ bodies history k, body ∈ history.filterMap Op.output? := by
    intro body hbody
    obtain ⟨op, hop, hsome⟩ := mem_filterMap.mp (mem_reverse.mp hbody)
    refine mem_filterMap.mpr ⟨op, hop, ?_⟩
    cases op with
    | record key isErr output =>
      simp only [Op.body?] at hsome
      split at hsome
      · exact hsome
      · cases hsome
    | check key => cases hsome
    | clearFailures key => cases hsome
  unfold hashRun repeatRun
  cases hbodies : bodies history k with
  | nil => rfl
  | cons latest rest =>
    rw [hbodies] at hmem
    simp only [likeFirst, List.cons.injEq, true_and]
    have hlike : ∀ body ∈ rest, decide (shortHash rt (utf8 body) = shortHash rt (utf8 latest)) =
        decide (body = latest) := by
      intro body hbody
      have hsame := h body (hmem body (mem_cons_of_mem _ hbody)) latest
        (hmem latest mem_cons_self)
      by_cases heq : body = latest
      · simp [heq]
      · have hne : ¬ shortHash rt (utf8 body) = shortHash rt (utf8 latest) :=
          fun hhash => heq (hsame hhash)
        simp [heq, hne]
    clear hbodies hmem
    induction rest with
    | nil => rfl
    | cons body rest ih =>
      rw [takeWhile_cons, takeWhile_cons, hlike body mem_cons_self,
        ih fun b hb => hlike b (mem_cons_of_mem _ hb)]

theorem Collisionless.of_append {rt : Runtime} {ops later : List Op}
    (h : Collisionless rt (ops ++ later)) : Collisionless rt ops := by
  intro a ha b hb
  unfold Collisionless at h
  rw [filterMap_append] at h
  exact h a (mem_append_left _ ha) b (mem_append_left _ hb)

/-- A ledger that holds the last keys answers as the history tells. -/
theorem step_told {rt : Runtime}
    (hsemantic : l.semantic.Holds maxFailureLedgerEntries (semanticLog history) (semanticEntry rt history))
    (hexact : l.exact.Holds maxFailureLedgerEntries (exactLog history) (exactEntry rt history))
    (hnear : Near (semanticLog history) op.key.semantic ∧ Near (exactLog history) op.key.exact)
    (hhash : Collisionless rt (history ++ [op])) : (l.step rt op).2 = told rt history op := by
  have hold := fun k => @entries_near _ _ _ hsemantic k
  have hcalls := fun k => @entries_near _ _ _ hexact k
  cases op with
  | check key =>
    have hs : (l.semantic.entries key.semantic).getD {} = semanticEntry rt history key.semantic := by
      rw [hold key.semantic hnear.1]
      by_cases hk : key.semantic ∈ semanticLog history
      · rw [if_pos hk, Option.getD_some]
      · rw [if_neg hk, Option.getD_none, semanticEntry_of_not_mem rt hk]
    have he : (l.exact.entries key.exact).getD {} = exactEntry rt history key.exact := by
      rw [hcalls key.exact hnear.2]
      by_cases hk : key.exact ∈ exactLog history
      · rw [if_pos hk, Option.getD_some]
      · rw [if_neg hk, Option.getD_none, exactEntry_of_not_mem rt hk]
    have hgetD : ∀ {α : Type} (o : Option FailureEntry) (f : FailureEntry → α),
        (o.map f).getD (f {}) = f (o.getD {}) := fun o f => by cases o <;> rfl
    have hcount : (l.check key) = ⟨(semanticEntry rt history key.semantic).count,
        (exactEntry rt history key.exact).bodyCount,
        (semanticEntry rt history key.semantic).snippets⟩ := by
      rw [← hs, ← he, ← hgetD _ FailureEntry.count, ← hgetD _ FailureEntry.bodyCount,
        ← hgetD _ FailureEntry.snippets]
      rfl
    rw [show (l.step rt (.check key)).2 = l.check key from rfl, hcount]
    simp only [told, semanticEntry, exactEntry, hashRun_eq_repeatRun hhash.of_append]
  | record key isErr output =>
    have he : (l.exact.entries key.exact).getD {} = exactEntry rt history key.exact := by
      rw [hcalls key.exact hnear.2]
      by_cases hk : key.exact ∈ exactLog history
      · rw [if_pos hk, Option.getD_some]
      · rw [if_neg hk, Option.getD_none, exactEntry_of_not_mem rt hk]
    have hbody := observeBody_exactEntry rt history key isErr output
    have hfail := observeFailure_semanticEntry rt history key isErr output
    have hrepeat : (observeBody rt ((l.exact.entries key.exact).getD {}) output).bodyCount =
        (repeatRun (history ++ [.record key isErr output]) key.exact).length := by
      rw [he, hbody, exactEntry, hashRun_eq_repeatRun hhash]
    have hstreak : (observeFailure rt ((l.semantic.entries key.semantic).getD {}) isErr output).count =
        (failRun rt (history ++ [.record key isErr output]) key.semantic).length := by
      have hs : (l.semantic.entries key.semantic).getD {} =
          semanticEntry rt history key.semantic := by
        rw [hold key.semantic hnear.1]
        by_cases hk : key.semantic ∈ semanticLog history
        · rw [if_pos hk, Option.getD_some]
        · rw [if_neg hk, Option.getD_none, semanticEntry_of_not_mem rt hk]
      rw [hs, hfail, semanticEntry]
    unfold FailureLedger.step FailureLedger.record told
    dsimp only
    rw [hrepeat, ← hstreak]
    cases l.semantic.entries key.semantic <;> cases isErr <;> rfl
  | clearFailures key => rfl

theorem ledger_agrees (rt : Runtime) (ops : List Op) :
    ((run rt ops).exact.WellKept maxFailureLedgerEntries ∧
      (run rt ops).semantic.WellKept maxFailureLedgerEntries) ∧
    (∀ key output k, ((run rt ops).record rt key false output).1.semantic.entries k = none ↔
      (run rt ops).semantic.entries k = none) ∧
    (Spaced ops → Collisionless rt ops → ∀ earlier op later, ops = earlier ++ op :: later →
      ((run rt earlier).step rt op).2 = told rt earlier op) := by
  refine ⟨wellKept_run rt ops,
    fun key output k => success_keeps rt (wellKept_run rt ops).2 key output k, ?_⟩
  intro hspaced hhash earlier op later heq
  have hearlier : Spaced earlier := fun a b c habc =>
    hspaced a b (c ++ op :: later) (by rw [heq, habc]; simp)
  obtain ⟨hsemantic, hexact⟩ := holds_run rt earlier hearlier
  have hprefix : Collisionless rt ((earlier ++ [op]) ++ later) := by simpa [heq] using hhash
  have hhash' : Collisionless rt (earlier ++ [op]) := hprefix.of_append
  exact step_told hsemantic hexact (hspaced earlier op later heq) hhash'

/-- The digest of the one text that the runs below record; texts without capitals. -/
def boomRuntime : Runtime where
  sha256 b := if b = utf8 "boom" then
      #v[129, 245, 35, 55, 235, 180, 203, 22, 105, 187, 128, 44, 112, 136, 7, 221, 224, 81, 157, 21, 203, 16, 42, 99, 19, 210, 106, 213, 205, 130, 23, 19]
    else Vector.replicate 32 0
  toLower s := s

def sameCall : DispatchKey := ⟨"read:1", "read:sem:1"⟩

/-- One call fails twice in the same way and is looked up. -/
def failsTwice : List Op :=
  [.record sameCall true "boom", .record sameCall true "boom", .check sameCall]

theorem failsTwice_told :
    ((run boomRuntime (failsTwice.take 2)).step boomRuntime (.check sameCall)).2 =
      told boomRuntime (failsTwice.take 2) (.check sameCall) := by
  refine (ledger_agrees boomRuntime failsTwice).2.2 ?_ ?_ (failsTwice.take 2) (.check sameCall) [] rfl
  · intro earlier op later heq
    unfold failsTwice at heq
    match earlier with
    | [] => cases heq; decide
    | [_] => cases heq; decide
    | [_, _] => cases heq; decide
    | _ :: _ :: _ :: rest => simp at heq
  · intro a ha b hb _
    have hboom : ∀ body ∈ failsTwice.filterMap Op.output?, body = "boom" := by decide
    rw [hboom a ha, hboom b hb]

/-! ## A run that is looked up late -/

/-- Between two uses of a key, fewer than 512 other keys are used. -/
def TouchesNear (log : List String) : Prop :=
  ∀ front key between back, log = front ++ key :: between ++ key :: back → key ∉ between →
    between.dedup.length < maxFailureLedgerEntries

theorem touchesNear_of_nodup {log : List String} (h : log.Nodup) : TouchesNear log := by
  rintro front key between back rfl -
  have hdisjoint := disjoint_of_nodup_append h
  exact absurd mem_cons_self (hdisjoint (by simp))

def callName (i : Nat) : String := String.ofList (List.replicate i 'a')

theorem callName_injective : Function.Injective callName := by
  intro i j h
  have hlength := congrArg (fun s => s.toList.length) h
  simpa [callName] using hlength

/-- Calls of `n` fingerprints fail, one after the other. -/
def failEach (n : Nat) : List Op :=
  (List.range n).map fun i => .record ⟨callName i, callName i⟩ true "boom"

theorem failEach_succ (n : Nat) :
    failEach (n + 1) = failEach n ++ [.record ⟨callName n, callName n⟩ true "boom"] := by
  rw [failEach, range_succ, map_append]
  rfl

theorem logs_failEach (n : Nat) : semanticLog (failEach n) = (List.range n).map callName ∧
    exactLog (failEach n) = (List.range n).map callName := by
  induction n with
  | zero => exact ⟨rfl, rfl⟩
  | succ n ih =>
    rw [failEach_succ, semanticLog_append, exactLog_append, ih.1, ih.2, range_succ,
      map_append]
    simp

theorem nodup_callNames (n : Nat) : ((List.range n).map callName).Nodup :=
  nodup_range.map callName_injective

theorem spaced_failEach (n : Nat) : Spaced (failEach n) := by
  induction n with
  | zero =>
    intro earlier op later heq
    exact absurd heq (by simp [failEach])
  | succ n ih =>
    intro earlier op later heq
    rw [failEach_succ] at heq
    cases eq_nil_or_concat later with
    | inl hnil =>
      subst hnil
      obtain ⟨rfl, hlast⟩ := append_inj' heq rfl
      cases hlast
      have hnew : callName n ∉ (List.range n).map callName := by
        intro hmem
        obtain ⟨i, hi, hname⟩ := mem_map.mp hmem
        rw [callName_injective hname] at hi
        exact absurd hi (by simp)
      exact ⟨fun hmem => absurd ((logs_failEach n).1 ▸ hmem) hnew,
        fun hmem => absurd ((logs_failEach n).2 ▸ hmem) hnew⟩
    | inr hmore =>
      obtain ⟨later', last, rfl⟩ := hmore
      have heq' : failEach n ++ [_] = (earlier ++ op :: later') ++ [last] := heq.trans (by simp)
      exact ih earlier op later' (append_inj' heq' rfl).1

theorem failures_failEach (n : Nat) : failures (failEach (n + 1)) (callName 0) = ["boom"] := by
  induction n with
  | zero => decide
  | succ n ih =>
    have hother : callName (n + 1) ≠ callName 0 := fun h => by
      have := callName_injective h
      omega
    rw [failEach_succ, failures_append]
    simpa [Op.outcome?, hother] using ih

/-- A fingerprint that failed once is asked for behind 512 others: no key is used twice, and the
ledger has forgotten the failure. -/
theorem late_check_forgets :
    ¬ ∀ (rt : Runtime) (ops : List Op), TouchesNear (semanticLog ops) → TouchesNear (exactLog ops) →
      Collisionless rt ops → ∀ earlier op later, ops = earlier ++ op :: later →
      ((run rt earlier).step rt op).2 = told rt earlier op := by
  intro h
  -- the number of calls stays a variable, so that nothing evaluates the run
  obtain ⟨n, hn⟩ : ∃ n, n = 512 := ⟨512, rfl⟩
  have hlogs := logs_failEach (n + 1)
  have hcheck := h boomRuntime (failEach (n + 1) ++ [.check ⟨callName 0, callName 0⟩])
    (by rw [semanticLog_append, hlogs.1]; exact touchesNear_of_nodup (nodup_callNames (n + 1)))
    (by rw [exactLog_append, hlogs.2]; exact touchesNear_of_nodup (nodup_callNames (n + 1)))
    (by
      have hboom : ∀ m, ∀ body ∈ (failEach m).filterMap Op.output?, body = "boom" := by
        intro m body hbody
        obtain ⟨op, hop, hsome⟩ := mem_filterMap.mp hbody
        obtain ⟨i, _, rfl⟩ := mem_map.mp hop
        exact (Option.some.inj hsome).symm
      intro a ha b hb _
      rw [filterMap_append] at ha hb
      rw [hboom (n + 1) a (by simpa [Op.output?] using ha), hboom (n + 1) b (by simpa [Op.output?] using hb)])
    (failEach (n + 1)) (.check ⟨callName 0, callName 0⟩) [] rfl
  obtain ⟨hsemantic, -⟩ := holds_run boomRuntime (failEach (n + 1)) (spaced_failEach (n + 1))
  have hnot : callName 0 ∉ (run boomRuntime (failEach (n + 1))).semantic.order := by
    rw [hsemantic.order, hlogs.1, dedup_eq_self.mpr (nodup_callNames (n + 1)), lastOf,
      length_map, length_range, ← map_drop]
    intro hmem
    obtain ⟨i, hi, hname⟩ := mem_map.mp hmem
    rw [callName_injective hname, mem_drop_iff_getElem] at hi
    obtain ⟨j, hj, hget⟩ := hi
    rw [getElem_range, show maxFailureLedgerEntries = 512 from rfl] at hget
    omega
  have hnone : (run boomRuntime (failEach (n + 1))).semantic.entries (callName 0) = none := by
    rw [hsemantic.entries, if_neg hnot]
  have hstreak := congrArg Judgement.failStreak hcheck
  rw [show ((run boomRuntime (failEach (n + 1))).step boomRuntime (.check ⟨callName 0, callName 0⟩)).2 =
    (run boomRuntime (failEach (n + 1))).check ⟨callName 0, callName 0⟩ from rfl] at hstreak
  simp only [FailureLedger.check, hnone, told, failRun, failures_failEach n] at hstreak
  simp [likeFirst] at hstreak

end Evener.Tool.Breaker
