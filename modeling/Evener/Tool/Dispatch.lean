/-
  Judged calls of a session: the breaker looks a call up before it runs and records what it gave,
  with the steps of the other calls of its batch in between.
-/
import Evener.Tool.BreakerRuns

namespace Evener.Tool.Breaker
open Evener.Lib List

def breakerThreshold : Nat := 2

def failureNudgeText : String :=
  "You just ran the same tool twice with the same arguments and got the same failure. Consider an alternate approach"

def repetitionNudgeText (count : Nat) : String :=
  "You have now made this same call and received the identical result " ++ toString count ++
    " times in a row. Repeating it will not change the answer — use the result you already have, or change your approach."

def failureParkText (name : String) (snippets : List String) : String :=
  "evener did not execute this call: " ++ name ++
    " with equivalent arguments has now failed 3 times with the same error; it will not be executed again until you change the arguments or the approach." ++
    (if snippets = [] then "" else "\n\nThe failures so far:") ++
    String.join ((List.range snippets.length).map fun i =>
      "\n" ++ toString (i + 1) ++ ". " ++ snippets[i]?.getD "")

/-- The failures in a row of a fingerprint. -/
def FailureLedger.streak (l : FailureLedger) (k : String) : Nat :=
  ((l.semantic.entries k).map (·.count)).getD 0

/-- The ledger, and the keys of the judged calls that are running. -/
structure Session where
  ledger : FailureLedger := newFailureLedger
  running : List DispatchKey := []

/-- `authorize` is a call that the breaker does not judge, `abandon` the end of a judged one that
    is turned away before its executor. -/
inductive Move where
  | enter (name : String) (key : DispatchKey)
  | authorize (key : DispatchKey)
  | finish (key : DispatchKey) (isErr : Bool) (output : String)
  | abandon (key : DispatchKey)

namespace Session

/-- A step of `executeCall`, with the breaker's text in the answer. -/
def step (rt : Runtime) (s : Session) : Move → Option (Session × Option String)
  | .enter name key =>
    let judged := s.ledger.check key
    if breakerThreshold ≤ judged.failStreak then
      some (s, some (failureParkText name judged.snippets))
    else some ({ s with running := key :: s.running }, none)
  | .authorize key => some ({ s with ledger := s.ledger.clearFailures key }, none)
  | .finish key isErr output =>
    if key ∉ s.running then none
    else
      let (ledger, judged) := s.ledger.record rt key isErr output
      some (⟨ledger, s.running.erase key⟩,
        if breakerThreshold ≤ judged.failStreak then some failureNudgeText
        else if breakerThreshold ≤ judged.repeatStreak then
          some (repetitionNudgeText judged.repeatStreak)
        else none)
  | .abandon key =>
    if key ∉ s.running then none else some ({ s with running := s.running.erase key }, none)

def streak (s : Session) (k : String) : Nat := s.ledger.streak k

def inFlight (s : Session) (k : String) : Nat := s.running.countP (·.semantic = k)

/-- Reached with at most `n` calls of a fingerprint running at a time. -/
inductive Reached (rt : Runtime) (n : Nat) : Session → Prop where
  | start : Reached rt n {}
  | step {s s' : Session} {move : Move} {text : Option String} (h : Reached rt n s)
      (hstep : s.step rt move = some (s', text)) (hflight : ∀ k, s'.inFlight k ≤ n) :
      Reached rt n s'

/-- Later, with `k` held all the way and no call of it authorized. -/
inductive Undisturbed (rt : Runtime) (k : String) (s : Session) : Session → Prop where
  | here : Undisturbed rt k s s
  | step {t t' : Session} {move : Move} {text : Option String} (h : Undisturbed rt k s t)
      (hstep : t.step rt move = some (t', text))
      (hother : ∀ key, move = .authorize key → key.semantic ≠ k)
      (hheld : t'.ledger.semantic.entries k ≠ none) : Undisturbed rt k s t'

end Session

/-! ## What a step does -/

variable {rt : Runtime} {l l' : FailureLedger} {key : DispatchKey} {s s' : Session} {k : String}

/-- What a call of `key` may leave of the entry of `k`: nothing, or what was there, or, where it
    is its own, one with a streak of at most `gain` more. -/
def Leaves (gain : Nat) (key : DispatchKey) (k : String) (l l' : FailureLedger) : Prop :=
  l'.semantic.entries k = none ∨ l'.semantic.entries k = l.semantic.entries k ∨
    key.semantic = k ∧ l'.streak k ≤ l.streak k + gain

theorem Leaves.streak_le {gain : Nat} (h : Leaves gain key k l l') :
    l'.streak k ≤ l.streak k + if key.semantic = k then gain else 0 := by
  rcases h with hnone | hsame | ⟨hk, hle⟩
  · simp [FailureLedger.streak, hnone]
  · simp [FailureLedger.streak, hsame]
  · rwa [if_pos hk]

theorem leaves_put (exact : Recency String FailureEntry) {e : FailureEntry} {gain : Nat}
    (he : e.count ≤ l.streak key.semantic + gain) :
    Leaves gain key k l ⟨exact, l.semantic.put maxFailureLedgerEntries key.semantic e⟩ := by
  -- the write itself, before the key that is forgotten
  have hwritten : ∀ entry, entry = Function.update l.semantic.entries key.semantic (some e) k →
      entry = l.semantic.entries k ∨
        key.semantic = k ∧ (entry.map (·.count)).getD 0 ≤ l.streak k + gain := by
    rintro _ rfl
    by_cases hk : key.semantic = k
    · subst hk
      exact Or.inr ⟨rfl, by simpa using he⟩
    · exact Or.inl (Function.update_of_ne (Ne.symm hk) _ _)
  unfold Recency.put
  rcases @Recency.touch_cases _ _ _ maxFailureLedgerEntries { l.semantic with
    entries := Function.update l.semantic.entries key.semantic (some e) } key.semantic with
    ⟨_, h⟩ | ⟨_, oldest, rest, _, h⟩
  · rw [h]
    exact Or.inr (hwritten _ rfl)
  · rw [h]
    by_cases hk : k = oldest
    · exact Or.inl (by simp [hk])
    · exact Or.inr (hwritten _ (Function.update_of_ne hk _ _))

theorem count_observeFailure_le (e : FailureEntry) (isErr : Bool) (output : String) :
    (observeFailure rt e isErr output).count ≤ e.count + 1 := by
  unfold observeFailure
  split
  · dsimp only
    split <;> simp
  · simp

theorem record_leaves (isErr : Bool) (output : String) :
    Leaves 1 key k l (l.record rt key isErr output).1 ∧
      (l.record rt key isErr output).2.failStreak ≤ l.streak key.semantic + 1 := by
  have hcount := @count_observeFailure_le rt ((l.semantic.entries key.semantic).getD {}) isErr output
  unfold FailureLedger.record
  cases hheld : l.semantic.entries key.semantic <;> rw [hheld] at hcount
  · cases isErr with
    | false => exact ⟨Or.inr (Or.inl rfl), Nat.zero_le _⟩
    | true =>
      have he := Nat.le_trans hcount (Nat.succ_le_succ (Nat.zero_le (l.streak key.semantic)))
      exact ⟨leaves_put _ he, he⟩
  · next e =>
    have he : (observeFailure rt e isErr output).count ≤ l.streak key.semantic + 1 := by
      simpa [FailureLedger.streak, hheld] using hcount
    exact ⟨leaves_put _ he, he⟩

theorem clearFailures_leaves : Leaves 0 key k l (l.clearFailures key) := by
  unfold FailureLedger.clearFailures
  cases l.semantic.entries key.semantic with
  | none => exact Or.inr (Or.inl rfl)
  | some e => exact leaves_put _ (Nat.zero_le _)

namespace Session

/-- Everything a step can do. -/
theorem step_cases {move : Move} {text : Option String} (h : s.step rt move = some (s', text)) :
    s' = s ∨
    (∃ key, s.streak key.semantic < breakerThreshold ∧
      s' = { s with running := key :: s.running }) ∨
    (∃ key, move = .authorize key ∧ s' = { s with ledger := s.ledger.clearFailures key }) ∨
    ∃ key ∈ s.running, s'.running = s.running.erase key ∧ ∀ k, Leaves 1 key k s.ledger s'.ledger := by
  cases move with
  | enter name key =>
    simp only [Session.step] at h
    split at h
    · cases h; exact Or.inl rfl
    · next hlow => cases h; exact Or.inr (Or.inl ⟨key, Nat.not_le.mp hlow, rfl⟩)
  | authorize key => cases h; exact Or.inr (Or.inr (Or.inl ⟨key, rfl, rfl⟩))
  | finish key isErr output =>
    simp only [Session.step, ite_not] at h
    split at h
    · next hkey =>
      cases h
      exact Or.inr (Or.inr (Or.inr ⟨key, hkey, rfl, fun _ => (record_leaves isErr output).1⟩))
    · cases h
  | abandon key =>
    simp only [Session.step, ite_not] at h
    split at h
    · next hkey =>
      cases h
      exact Or.inr (Or.inr (Or.inr ⟨key, hkey, rfl, fun _ => Or.inr (Or.inl rfl)⟩))
    · cases h

/-- A streak and the calls that may still add to it. -/
theorem Reached.bounded {n : Nat} (h : Reached rt n s) (k : String) :
    s.streak k + s.inFlight k ≤ n + 1 := by
  induction h with
  | start => simp [streak, FailureLedger.streak, inFlight, newFailureLedger, Recency.empty]
  | @step s s' move text h hstep hflight ih =>
    have hn := hflight k
    rcases step_cases hstep with rfl | ⟨key, hlow, rfl⟩ | ⟨key, _, rfl⟩ | ⟨key, hkey, hleft, hleaves⟩
    · exact ih
    · have hkept : streak { s with running := key :: s.running } k = s.streak k := rfl
      by_cases hk : key.semantic = k
      · rw [hk, breakerThreshold] at hlow
        omega
      · have hsame : inFlight { s with running := key :: s.running } k = s.inFlight k := by
          simp [inFlight, hk]
        omega
    · have hstreak := (@clearFailures_leaves s.ledger key k).streak_le
      rw [ite_self] at hstreak
      exact Nat.le_trans (Nat.add_le_add_right hstreak _) ih
    · have hstreak := (hleaves k).streak_le
      have hflown : s'.inFlight k + (if key.semantic = k then 1 else 0) = s.inFlight k := by
        unfold inFlight
        rw [hleft, (perm_cons_erase hkey).countP_eq, countP_cons]
        simp only [decide_eq_true_eq]
      unfold streak at ih ⊢
      omega

/-- A fingerprint that keeps failing keeps its evidence, and no call of it starts. -/
theorem Undisturbed.parked {t : Session} (h : Undisturbed rt k s t)
    (hstreak : breakerThreshold ≤ s.streak k) (hflight : s.inFlight k = 0) :
    t.ledger.semantic.entries k = s.ledger.semantic.entries k ∧ t.inFlight k = 0 := by
  induction h with
  | here => exact ⟨rfl, hflight⟩
  | @step t t' move text h hstep hother hheld ih =>
    obtain ⟨hentry, hnone⟩ := ih
    have hidle : ∀ key ∈ t.running, key.semantic ≠ k := fun key hkey => by
      simpa using countP_eq_zero.mp hnone key hkey
    have hkept : ∀ {gain key}, key.semantic ≠ k → Leaves gain key k t.ledger t'.ledger →
        t'.ledger.semantic.entries k = s.ledger.semantic.entries k := fun hne hleaves =>
      ((hleaves.resolve_left hheld).resolve_right fun hown => hne hown.1).trans hentry
    rcases step_cases hstep with rfl | ⟨key, hlow, rfl⟩ | ⟨key, hmove, rfl⟩ | ⟨key, hkey, hleft, hleaves⟩
    · exact ⟨hentry, hnone⟩
    · have hk : key.semantic ≠ k := by
        rintro rfl
        refine absurd hstreak (Nat.not_le.mpr ?_)
        unfold streak FailureLedger.streak at hlow ⊢
        rwa [hentry] at hlow
      exact ⟨hentry, by simpa [inFlight, hk] using hnone⟩
    · exact ⟨hkept (hother key hmove) clearFailures_leaves, hnone⟩
    · refine ⟨hkept (hidle key hkey) (hleaves k), countP_eq_zero.mpr fun j hj => ?_⟩
      rw [hleft] at hj
      simpa using hidle j (mem_of_mem_erase hj)

end Session

/-- With at most `n` calls of a fingerprint at a time its streak is at most `n + 1`, also as it is
    recorded; at the threshold it is refused with the same evidence until it is forgotten or
    authorized. -/
theorem breaker_holds (rt : Runtime) (n : Nat) (s : Session) (h : s.Reached rt n) (k : String) :
    s.streak k + s.inFlight k ≤ n + 1 ∧
      (∀ key ∈ s.running, ∀ isErr output,
        (s.ledger.record rt key isErr output).2.failStreak ≤ n + 1) ∧
      (breakerThreshold ≤ s.streak k → s.inFlight k = 0 → ∀ t, s.Undisturbed rt k t →
        ∀ name key, key.semantic = k → t.step rt (.enter name key) =
          some (t, some (failureParkText name (s.ledger.check key).snippets))) := by
  refine ⟨h.bounded k, fun key hkey isErr output => ?_, ?_⟩
  · have hpos : 0 < s.inFlight key.semantic := countP_pos_iff.mpr ⟨key, hkey, by simp⟩
    have hbound := h.bounded key.semantic
    have hrecord : (s.ledger.record rt key isErr output).2.failStreak ≤ _ :=
      (@record_leaves rt s.ledger key k isErr output).2
    unfold Session.streak at hbound
    omega
  · rintro hstreak hflight t ht name key rfl
    have hentry := (ht.parked hstreak hflight).1
    have hparks : breakerThreshold ≤ (t.ledger.check key).failStreak := by
      unfold FailureLedger.check
      rwa [hentry]
    have hsnippets : (t.ledger.check key).snippets = (s.ledger.check key).snippets := by
      unfold FailureLedger.check
      rw [hentry]
    simp only [Session.step, if_pos hparks, hsnippets]

/-- A call fails alone, then twice side by side: the last record is above the threshold, and the
    next call is refused while one of another fingerprint runs. -/
theorem breaker_holds_overlapping :
    let failed (n : Nat) : FailureLedger :=
      run boomRuntime (List.replicate n (.record sameCall true "boom"))
    let other : DispatchKey := ⟨"grep:1", "grep:sem:1"⟩
    Session.streak ⟨failed 1, [sameCall, sameCall]⟩ "read:sem:1" +
        Session.inFlight ⟨failed 1, [sameCall, sameCall]⟩ "read:sem:1" ≤ 3 ∧
      ((failed 2).record boomRuntime sameCall true "boom").2.failStreak = 3 ∧
      ((failed 2).record boomRuntime sameCall true "boom").2.failStreak ≤ 3 ∧
      Session.step boomRuntime ⟨failed 3, [other]⟩ (.enter "read" sameCall) =
        some (⟨failed 3, [other]⟩,
          some (failureParkText "read" ((failed 3).check sameCall).snippets)) := by
  intro failed other
  have hnext : ∀ {s s' : Session} move text, s.Reached boomRuntime 2 →
      s.step boomRuntime move = some (s', text) → s'.running.length ≤ 2 → s'.Reached boomRuntime 2 :=
    fun _ _ h hstep hlength => h.step hstep fun _ => Nat.le_trans countP_le_length hlength
  have halone : Session.Reached boomRuntime 2 ⟨failed 1, []⟩ :=
    hnext (.finish sameCall true "boom") none
      (hnext (.enter "read" sameCall) none .start rfl (by decide)) rfl (by decide)
  have hboth : Session.Reached boomRuntime 2 ⟨failed 1, [sameCall, sameCall]⟩ :=
    hnext (.enter "read" sameCall) none
      (hnext (.enter "read" sameCall) none halone rfl (by decide)) rfl (by decide)
  have hlast : Session.Reached boomRuntime 2 ⟨failed 2, [sameCall]⟩ :=
    hnext (.finish sameCall true "boom") (some failureNudgeText) hboth rfl (by decide)
  have hparked : Session.Reached boomRuntime 2 ⟨failed 3, []⟩ :=
    hnext (.finish sameCall true "boom") (some failureNudgeText) hlast rfl (by decide)
  have hmeanwhile : Session.Undisturbed boomRuntime "read:sem:1" ⟨failed 3, []⟩ ⟨failed 3, [other]⟩ :=
    @Session.Undisturbed.step _ _ _ _ _ (.enter "grep" other) none .here rfl (fun _ h => by cases h)
      (by decide)
  exact ⟨(breaker_holds boomRuntime 2 _ hboth "read:sem:1").1, rfl,
    (breaker_holds boomRuntime 2 _ hlast "read:sem:1").2.1 sameCall (by decide) true "boom",
    (breaker_holds boomRuntime 2 _ hparked "read:sem:1").2.2 (by decide) (by decide) _ hmeanwhile
      "read" sameCall rfl⟩

end Evener.Tool.Breaker
