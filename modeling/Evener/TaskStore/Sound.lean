/-
  What every task list of a store satisfies, and what additions and updates keep of it: an update
  batch is compared with the tasks that it leaves (`Applied`).
-/
import Evener.TaskStore.Store

namespace Evener.TaskStore

open Evener.Lib
open List hiding lookup

/-- The tasks are in the order of their ids, at most one is in progress, and the dependencies
    are tasks before them in some order. -/
structure Sound (s : TaskStore) : Prop where
  sorted : (s.tasks.map Task.id).Pairwise (· < ·)
  bounds : ∀ id ∈ s.tasks.map Task.id, 0 < id ∧ id < s.nextID
  nextID : 0 < s.nextID
  single : s.tasks.countP (fun t => t.status = .taskInProgress) ≤ 1
  known : ∀ t ∈ s.tasks, ∀ dep ∈ t.dependsOn, dep ≠ t.id ∧ dep ∈ s.tasks.map Task.id
  acyclic : ∃ r : Int → Nat, ∀ t ∈ s.tasks, ∀ dep ∈ t.dependsOn, r dep < r t.id
  completed : ∀ t ∈ s.tasks, t.completedAt.isSome = t.terminal
  stamps : ∀ t ∈ s.tasks, ∀ r ∈ t.completedAt, r < s.readings

theorem Sound.initial : Sound {} where
  sorted := List.Pairwise.nil
  bounds _ h := nomatch h
  nextID := by decide
  single := Nat.zero_le _
  known _ h := nomatch h
  acyclic := ⟨fun _ => 0, fun _ h => nomatch h⟩
  completed _ h := nomatch h
  stamps _ h := nomatch h

variable {s s' : TaskStore}

theorem Sound.keysNodup (h : Sound s) : KeysNodup Task.id s.tasks := by
  unfold KeysNodup
  exact h.sorted.imp fun hlt => Int.ne_of_lt hlt

/-! ## Maps of the tasks -/

variable {α : Type} {tasks : List Task} {deps : List Int}

theorem mapBy_eq_map (f : Task → α) (h : KeysNodup Task.id tasks) :
    mapBy f tasks = tasks.map fun t => (t.id, f t) := by
  have hfold : ∀ (l : List Task) (m : List (Int × α)), KeysNodup Task.id l →
      (∀ t ∈ l, ∀ w ∈ m, w.1 ≠ t.id) →
      l.foldl (fun m t => put Prod.fst (t.id, f t) m) m = m ++ l.map fun t => (t.id, f t) := by
    intro l
    induction l with
    | nil => simp
    | cons t l ih =>
      intro m hkeys hnew
      obtain ⟨hne, hkeys'⟩ := keysNodup_cons.mp hkeys
      have hput : put Prod.fst (t.id, f t) m = m ++ [(t.id, f t)] :=
        put_eq_append fun w hw => hnew t mem_cons_self w hw
      rw [foldl_cons, hput, ih _ hkeys' ?_, append_assoc]
      · rfl
      · intro t' ht' w hw
        rcases mem_append.mp hw with hw | hw
        · exact hnew t' (mem_cons_of_mem _ ht') w hw
        · rw [mem_singleton.mp hw]
          exact fun heq => hne t' ht' heq.symm
  exact (hfold tasks [] h (fun _ _ _ hw => nomatch hw)).trans (nil_append _)

theorem lookup_mapBy (f : Task → α) (h : KeysNodup Task.id tasks) {t : Task} (ht : t ∈ tasks) :
    lookup Prod.fst t.id (mapBy f tasks) = some (t.id, f t) := by
  rw [mapBy_eq_map f h, @lookup_map_key _ _ _ Task.id _ Prod.fst (fun t => (t.id, f t))
    (fun _ => rfl), (lookup_eq_some h).mpr ⟨ht, rfl⟩]
  rfl

/-- Where the map holds the dependencies of the tasks and has no cycle, a rank falls along them. -/
theorem rank_of_not_hasCycle {adj : List (Int × List Int)} (h : hasCycle adj = false)
    (hadj : ∀ t ∈ tasks, neighbors adj t.id = t.dependsOn) :
    ∃ r : Int → Nat, ∀ t ∈ tasks, ∀ dep ∈ t.dependsOn, r dep < r t.id := by
  have hleaf : ∀ x ∉ adj.map Prod.fst, neighbors adj x = [] := by
    intro x hx
    unfold neighbors
    rw [lookup_eq_none.mpr fun v hv heq => hx (mem_map.mpr ⟨v, hv, heq⟩)]
    rfl
  obtain ⟨r, hr⟩ := rank_of_not_hasBackEdge hleaf h
  refine ⟨r, fun t ht dep hdep => hr t.id dep ?_⟩
  rw [hadj t ht]
  exact hdep

theorem neighbors_of_lookup {adj : List (Int × List Int)} {x : Int}
    (h : lookup Prod.fst x adj = some (x, deps)) : neighbors adj x = deps := by
  unfold neighbors
  rw [h]
  rfl

/-! ## Checks -/

theorem forM_eq_ok {ε : Type} {f : α → Except ε Unit} {l : List α} :
    l.forM f = .ok () ↔ ∀ a ∈ l, f a = .ok () := by
  induction l with
  | nil => exact ⟨fun _ _ h => (nomatch h), fun _ => rfl⟩
  | cons a l ih =>
    show (f a >>= fun _ => l.forM f) = .ok () ↔ _
    rw [bind_eq_ok]
    constructor
    · rintro ⟨_, ha, hl⟩ b hb
      rcases mem_cons.mp hb with rfl | hb
      · exact ha
      · exact (ih).mp hl b hb
    · intro h
      exact ⟨(), h a mem_cons_self, (ih).mpr fun b hb => h b (mem_cons_of_mem _ hb)⟩

theorem checkKnown_ok {known : List Int} {taskID : Int} (h : checkKnown known taskID deps = .ok ()) :
    ∀ dep ∈ deps, dep ≠ taskID ∧ dep ∈ known := by
  intro dep hdep
  have hone := (forM_eq_ok).mp h dep hdep
  split at hone
  · cases hone
  · next hself =>
    split at hone
    · cases hone
    · next hknown => exact ⟨hself, not_not.mp hknown⟩

theorem validateDependencies_ok {pending : List Task} {taskID : Int}
    (h : validateDependencies tasks taskID deps pending = .ok ()) :
    (∀ dep ∈ deps, dep ≠ taskID ∧ dep ∈ (tasks ++ pending).map Task.id) ∧
      hasCycle (put Prod.fst (taskID, deps)
        (mapBy Task.dependsOn ((tasks ++ pending).filter fun t => t.id ≠ taskID))) = false := by
  unfold validateDependencies at h
  obtain ⟨_, hknown, hcycle⟩ := bind_eq_ok.mp h
  refine ⟨checkKnown_ok hknown, ?_⟩
  dsimp only at hcycle
  split at hcycle
  · cases hcycle
  · next hno => exact Bool.eq_false_iff.mpr hno

/-! ## Additions -/

theorem newTasks_spec (nextID : Int) (reading : Nat) (items : List TaskInput) :
    (newTasks nextID reading items).length = items.length ∧
      ((newTasks nextID reading items).map Task.id).Pairwise (· < ·) ∧
      ∀ t ∈ newTasks nextID reading items,
        nextID ≤ t.id ∧ t.id < nextID + items.length ∧ t.status = .taskOpen ∧
          t.completedAt = none := by
  induction items generalizing nextID reading with
  | nil => exact ⟨rfl, List.Pairwise.nil, fun _ h => (nomatch h)⟩
  | cons item items ih =>
    obtain ⟨hlength, hsorted, hall⟩ := ih (nextID + 1) (reading + 1)
    unfold newTasks
    refine ⟨by rw [length_cons, hlength, length_cons], ?_, ?_⟩
    · rw [map_cons, pairwise_cons]
      refine ⟨fun id hid => ?_, hsorted⟩
      obtain ⟨t, ht, rfl⟩ := mem_map.mp hid
      have hbound := (hall t ht).1
      show nextID < t.id
      omega
    · intro t ht
      rw [length_cons]
      rcases mem_cons.mp ht with rfl | ht
      · refine ⟨Int.le_refl _, ?_, rfl, rfl⟩
        show nextID < _
        omega
      · obtain ⟨hle, hlt, hstatus, hcompleted⟩ := hall t ht
        exact ⟨by omega, by omega, hstatus, hcompleted⟩

/-- An accepted addition. -/
structure Appends (s s' : TaskStore) (added : List Task) : Prop where
  sound : Sound s'
  tasks : s'.tasks = s.tasks ++ added
  fresh : ∀ t ∈ added, t.completedAt = none
  readings : s.readings ≤ s'.readings
  loadErr : s'.loadErr = s.loadErr

theorem Sound.appended (h : Sound s) {items : List TaskInput} {added : List Task}
    (hok : appendLocked s items = .ok (added, s')) : Appends s s' added := by
  unfold appendLocked at hok
  obtain ⟨_, hchecks, hreturn⟩ := bind_eq_ok.mp hok
  obtain ⟨rfl, rfl⟩ := Prod.mk.inj (Except.ok.inj hreturn)
  obtain ⟨hlength, hsorted, hnew⟩ := newTasks_spec s.nextID s.readings items
  generalize newTasks s.nextID s.readings items = added at *
  have hchecked := (forM_eq_ok).mp hchecks
  have hids : ((s.tasks ++ added).map Task.id).Pairwise (· < ·) := by
    rw [map_append, pairwise_append]
    refine ⟨h.sorted, hsorted, fun a ha b hb => ?_⟩
    obtain ⟨t, ht, rfl⟩ := mem_map.mp hb
    have hbelow := (h.bounds a ha).2
    have habove := (hnew t ht).1
    omega
  have hkeys : KeysNodup Task.id (s.tasks ++ added) := by
    unfold KeysNodup
    exact hids.imp fun hlt => Int.ne_of_lt hlt
  refine ⟨?_, rfl, fun t ht => (hnew t ht).2.2.2, Nat.le_add_right _ _, rfl⟩
  constructor
  case sorted => exact hids
  case bounds =>
    intro id hid
    have hpos := h.nextID
    show 0 < id ∧ id < s.nextID + items.length
    rw [map_append] at hid
    rcases mem_append.mp hid with hid | hid
    · have hold := h.bounds id hid
      omega
    · obtain ⟨t, ht, rfl⟩ := mem_map.mp hid
      have hbound := hnew t ht
      omega
  case nextID =>
    have hpos := h.nextID
    show 0 < s.nextID + items.length
    omega
  case single =>
    have hnone : added.countP (fun t => t.status = .taskInProgress) = 0 :=
      countP_eq_zero.mpr fun t ht => by simp [(hnew t ht).2.2.1]
    show (s.tasks ++ added).countP _ ≤ 1
    rw [countP_append, hnone]
    exact h.single
  case known =>
    intro t ht dep hdep
    show dep ≠ t.id ∧ dep ∈ (s.tasks ++ added).map Task.id
    rcases mem_append.mp ht with ht | ht
    · obtain ⟨hne, hmem⟩ := h.known t ht dep hdep
      rw [map_append]
      exact ⟨hne, mem_append_left _ hmem⟩
    · have hcheck := hchecked t ht
      rw [if_neg (ne_nil_of_mem hdep)] at hcheck
      obtain ⟨hne, hmem⟩ := (validateDependencies_ok hcheck).1 dep hdep
      refine ⟨hne, ?_⟩
      rw [map_append] at hmem ⊢
      exact mem_append.mpr ((mem_append.mp hmem).imp id fun hin =>
        map_subset _ (filter_subset_self _) hin)
  case acyclic =>
    show ∃ r : Int → Nat, ∀ t ∈ s.tasks ++ added, ∀ dep ∈ t.dependsOn, r dep < r t.id
    by_cases hnone : ∀ t ∈ added, t.dependsOn = []
    · obtain ⟨r, hr⟩ := h.acyclic
      refine ⟨r, fun t ht dep hdep => ?_⟩
      rcases mem_append.mp ht with ht | ht
      · exact hr t ht dep hdep
      · rw [hnone t ht] at hdep
        cases hdep
    · -- the check of any addition with dependencies sees the whole graph
      push Not at hnone
      obtain ⟨t, ht, hdeps⟩ := hnone
      have hcheck := hchecked t ht
      rw [if_neg hdeps] at hcheck
      refine rank_of_not_hasCycle (validateDependencies_ok hcheck).2 fun t' ht' => ?_
      apply neighbors_of_lookup
      rw [lookup_put]
      by_cases hsame : t'.id = t.id
      · obtain rfl := hkeys.eq_of_key ht' (mem_append_right _ ht) hsame
        rw [if_pos rfl]
      · rw [if_neg fun heq => hsame heq.symm]
        apply lookup_mapBy
        · refine hkeys.sublist ?_
          exact filter_sublist.trans (List.Sublist.append_left filter_sublist _)
        · refine mem_filter.mpr ⟨?_, decide_eq_true hsame⟩
          exact mem_append.mpr ((mem_append.mp ht').imp id fun hin =>
            mem_filter.mpr ⟨hin, decide_eq_true hsame⟩)
  case completed =>
    intro t ht
    rcases mem_append.mp ht with ht | ht
    · exact h.completed t ht
    · obtain ⟨_, _, hstatus, hcompleted⟩ := hnew t ht
      unfold Task.terminal
      rw [hstatus, hcompleted]
      rfl
  case stamps =>
    intro t ht r hr
    rcases mem_append.mp ht with ht | ht
    · exact Nat.lt_add_right _ (h.stamps t ht r hr)
    · rw [(hnew t ht).2.2.2] at hr
      cases hr

/-! ## Updates -/

/-- An update keeps a task's stamp, sets it or takes it away. -/
inductive Restamps (t : Task) (u : TaskUpdate) (ts : Nat) (settled : List Int) : Prop where
  | keeps (status : (t.updated u ts).status = t.status)
      (completedAt : (t.updated u ts).completedAt = t.completedAt)
      (set : resettled settled t u = settled)
  | settles (terminal : (t.updated u ts).terminal = true)
      (completedAt : (t.updated u ts).completedAt = some ts)
      (set : resettled settled t u = u.id :: settled.filter fun id => id ≠ u.id)
  | reopens (terminal : (t.updated u ts).terminal = false)
      (completedAt : (t.updated u ts).completedAt = none)
      (set : resettled settled t u = settled.filter fun id => id ≠ u.id)

theorem restamps {u : TaskUpdate} (h : checkStatus u = .ok ()) (t : Task) (ts : Nat)
    (settled : List Int) : Restamps t u ts settled := by
  cases hstatus : TaskStatus.ofText u.status with
  | none =>
    have hempty : u.status = "" := by
      unfold checkStatus at h
      by_contra hne
      rw [if_neg (by simp [hne, hstatus])] at h
      cases h
    have hofText : TaskStatus.ofText "" = none := rfl
    apply Restamps.keeps
    · simp [Task.updated, hstatus]
    · simp [Task.updated, hempty, hofText]
    · simp [resettled, hempty, hofText]
  | some status =>
    have hne : u.status ≠ "" := by
      intro hempty
      rw [hempty] at hstatus
      cases hstatus
    have hset : (t.updated u ts).status = status := by simp [Task.updated, hstatus]
    by_cases hterminal : status = .taskDone ∨ status = .taskCancelled
    · by_cases hsame : status = t.status
      · subst hsame
        apply Restamps.keeps
        · rw [hset]
        · simp [Task.updated, hstatus, hterminal]
        · simp [resettled, hstatus, hterminal]
      · apply Restamps.settles
        · simpa [Task.terminal, hset] using hterminal
        · simp [Task.updated, hstatus, hterminal, hsame]
        · simp [resettled, hstatus, hterminal, hsame]
    · apply Restamps.reopens
      · simpa [Task.terminal, hset] using hterminal
      · simp [Task.updated, hstatus, hterminal, hne]
      · simp [resettled, hstatus, hterminal, hne]

/-- What no call changes of a task. -/
def Task.origin (t : Task) : Task :=
  { t with
    status := .taskOpen
    dependsOn := []
    notes := []
    reasoningEffort := ""
    updatedAt := none
    completedAt := none }

/-- A batch that has been applied in part: the projections are those of the tasks. -/
structure Applied (s : TaskStore) (start : Nat) (projected : List (Int × TaskStatus))
    (projDeps : List (Int × List Int)) (acc : List Int × TaskStore) : Prop where
  origins : acc.2.tasks.map Task.origin = s.tasks.map Task.origin
  nextID : acc.2.nextID = s.nextID
  loadErr : acc.2.loadErr = s.loadErr
  statuses : acc.2.tasks.map (fun t => (t.id, t.status)) = projected
  deps : acc.2.tasks.map (fun t => (t.id, t.dependsOn)) = projDeps
  known : ∀ t ∈ acc.2.tasks, ∀ dep ∈ t.dependsOn, dep ≠ t.id ∧ dep ∈ s.tasks.map Task.id
  completed : ∀ t ∈ acc.2.tasks, t.completedAt.isSome = t.terminal
  stamps : ∀ t ∈ acc.2.tasks, ∀ r ∈ t.completedAt, r < acc.2.readings
  readings : start ≤ acc.2.readings
  settled : ∀ id, id ∈ acc.1 ↔
    ∃ t ∈ acc.2.tasks, t.id = id ∧ ∃ r ∈ t.completedAt, start ≤ r

theorem ids_of_origins {l l' : List Task} (h : l.map Task.origin = l'.map Task.origin) :
    l.map Task.id = l'.map Task.id := by
  have hids := congrArg (List.map Task.id) h
  simpa [map_map, Function.comp_def, Task.origin] using hids

variable {start : Nat} {projected projected' : List (Int × TaskStatus)}
  {projDeps : List (Int × List Int)} {acc acc' : List Int × TaskStore}

theorem Applied.update (ha : Applied s start projected projDeps acc)
    (hkeys : KeysNodup Task.id s.tasks) {u : TaskUpdate} (hstatus : checkStatus u = .ok ())
    (hdeps : checkKnown (s.tasks.map Task.id) u.id (u.dependsOn.getD []) = .ok ())
    (hproject : projectStatus projected u = .ok projected')
    (happly : applyUpdate acc u = .ok acc') :
    Applied s start projected' (projectDeps projDeps u) acc' := by
  have hkeys' : KeysNodup Task.id acc.2.tasks := by
    unfold KeysNodup at hkeys ⊢
    rw [ids_of_origins ha.origins]
    exact hkeys
  unfold applyUpdate at happly
  split at happly
  · cases happly
  · next t hlookup =>
    obtain rfl := Except.ok.inj happly
    obtain ⟨ht, hid⟩ := (lookup_eq_some hkeys').mp hlookup
    have hmem : ∀ v, v ∈ put Task.id (t.updated u acc.2.readings) acc.2.tasks ↔
        v = t.updated u acc.2.readings ∨ v ∈ acc.2.tasks ∧ v.id ≠ t.id := fun v =>
      mem_put hkeys'
    have hrestamps := restamps hstatus t acc.2.readings acc.1
    constructor
    case origins =>
      show (put Task.id (t.updated u acc.2.readings) acc.2.tasks).map Task.origin = _
      rw [@map_put _ _ _ Task.id _ Task.id Task.origin (fun _ => rfl), ← ha.origins]
      apply put_eq_self
      show lookup Task.id t.id (acc.2.tasks.map Task.origin) = some t.origin
      rw [@lookup_map_key _ _ _ Task.id _ Task.id Task.origin (fun _ => rfl), hid, hlookup]
      rfl
    case nextID => exact ha.nextID
    case loadErr => exact ha.loadErr
    case statuses =>
      have hheld : lookup Prod.fst u.id projected = some (u.id, t.status) := by
        rw [← ha.statuses, @lookup_map_key _ _ _ Task.id _ Prod.fst
          (fun t => (t.id, t.status)) (fun _ => rfl), hlookup, ← hid]
        rfl
      unfold projectStatus at hproject
      rw [hheld, if_neg (by simp)] at hproject
      show (put Task.id (t.updated u acc.2.readings) acc.2.tasks).map
        (fun t => (t.id, t.status)) = _
      rw [@map_put _ _ _ Task.id _ Prod.fst (fun t => (t.id, t.status)) (fun _ => rfl),
        ha.statuses]
      cases htext : TaskStatus.ofText u.status with
      | none =>
        rw [htext] at hproject
        obtain rfl := Except.ok.inj hproject
        apply put_eq_self
        show lookup Prod.fst t.id projected = some (t.id, _)
        rw [hid, hheld]
        simp [Task.updated, htext]
      | some status =>
        rw [htext] at hproject
        obtain rfl := Except.ok.inj hproject
        show put Prod.fst (t.id, (t.updated u acc.2.readings).status) projected = _
        rw [hid]
        simp [Task.updated, htext]
    case deps =>
      show (put Task.id (t.updated u acc.2.readings) acc.2.tasks).map
        (fun t => (t.id, t.dependsOn)) = _
      rw [@map_put _ _ _ Task.id _ Prod.fst (fun t => (t.id, t.dependsOn)) (fun _ => rfl),
        ha.deps]
      unfold projectDeps
      cases hnew : u.dependsOn with
      | none =>
        apply put_eq_self
        show lookup Prod.fst t.id projDeps = some (t.id, _)
        rw [← ha.deps, @lookup_map_key _ _ _ Task.id _ Prod.fst
          (fun t => (t.id, t.dependsOn)) (fun _ => rfl), hid, hlookup]
        simp [Task.updated, hnew, hid]
      | some deps =>
        show put Prod.fst (t.id, (t.updated u acc.2.readings).dependsOn) projDeps = _
        rw [hid]
        simp [Task.updated, hnew]
    case known =>
      intro v hv dep hdep
      rcases (hmem v).mp hv with rfl | ⟨hv, _⟩
      · show dep ≠ t.id ∧ _
        cases hnew : u.dependsOn with
        | none =>
          have hold : dep ∈ t.dependsOn := by simpa [Task.updated, hnew] using hdep
          exact ha.known t ht dep hold
        | some deps =>
          rw [hid]
          apply checkKnown_ok hdeps
          simpa [Task.updated, hnew] using hdep
      · exact ha.known v hv dep hdep
    case completed =>
      intro v hv
      rcases (hmem v).mp hv with rfl | ⟨hv, _⟩
      · cases hrestamps with
        | keeps hsame hcompleted _ =>
          have hold := ha.completed t ht
          unfold Task.terminal at hold ⊢
          rw [hcompleted, hsame, hold]
        | settles hterminal hcompleted _ =>
          rw [hcompleted, hterminal]
          rfl
        | reopens hterminal hcompleted _ =>
          rw [hcompleted, hterminal]
          rfl
      · exact ha.completed v hv
    case stamps =>
      intro v hv r hr
      show r < acc.2.readings + 1
      rcases (hmem v).mp hv with rfl | ⟨hv, _⟩
      · cases hrestamps with
        | keeps _ hcompleted _ =>
          rw [hcompleted] at hr
          exact Nat.lt_succ_of_lt (ha.stamps t ht r hr)
        | settles _ hcompleted _ =>
          rw [hcompleted] at hr
          obtain rfl := Option.some.inj hr
          exact Nat.lt_succ_self _
        | reopens _ hcompleted _ =>
          rw [hcompleted] at hr
          cases hr
      · exact Nat.lt_succ_of_lt (ha.stamps v hv r hr)
    case readings => exact Nat.le_succ_of_le ha.readings
    case settled =>
      intro id
      show id ∈ resettled acc.1 t u ↔ _
      by_cases hsame : id = u.id
      · -- the task that is updated
        subst hsame
        have hone : (∃ v ∈ put Task.id (t.updated u acc.2.readings) acc.2.tasks,
            v.id = u.id ∧ ∃ r ∈ v.completedAt, start ≤ r) ↔
            ∃ r ∈ (t.updated u acc.2.readings).completedAt, start ≤ r := by
          constructor
          · rintro ⟨v, hv, hvid, hr⟩
            rcases (hmem v).mp hv with rfl | ⟨_, hother⟩
            · exact hr
            · exact absurd (hvid.trans hid.symm) hother
          · intro hr
            exact ⟨_, (hmem _).mpr (Or.inl rfl), hid, hr⟩
        have hold : u.id ∈ acc.1 ↔ ∃ r ∈ t.completedAt, start ≤ r := by
          rw [ha.settled]
          constructor
          · rintro ⟨v, hv, hvid, hr⟩
            obtain rfl := hkeys'.eq_of_key hv ht (hvid.trans hid.symm)
            exact hr
          · intro hr
            exact ⟨t, ht, hid, hr⟩
        rw [hone]
        cases hrestamps with
        | keeps _ hcompleted hset => rw [hset, hcompleted, hold]
        | settles _ hcompleted hset =>
          rw [hset, hcompleted]
          exact ⟨fun _ => ⟨_, rfl, ha.readings⟩, fun _ => mem_cons_self⟩
        | reopens _ hcompleted hset =>
          rw [hset, hcompleted]
          simp
      · have hset : id ∈ resettled acc.1 t u ↔ id ∈ acc.1 := by
          cases hrestamps with
          | keeps _ _ hset => rw [hset]
          | settles _ _ hset =>
            rw [hset]
            simp [hsame]
          | reopens _ _ hset =>
            rw [hset]
            simp [hsame]
        rw [hset, ha.settled]
        constructor
        · rintro ⟨v, hv, hvid, hr⟩
          refine ⟨v, (hmem v).mpr (Or.inr ⟨hv, ?_⟩), hvid, hr⟩
          rw [hvid, hid]
          exact hsame
        · rintro ⟨v, hv, hvid, hr⟩
          rcases (hmem v).mp hv with rfl | ⟨hv, _⟩
          · exact absurd (hvid.symm.trans hid) hsame
          · exact ⟨v, hv, hvid, hr⟩

theorem Applied.updates (ha : Applied s start projected projDeps acc)
    (hkeys : KeysNodup Task.id s.tasks) {updates : List TaskUpdate}
    (hstatus : ∀ u ∈ updates, checkStatus u = .ok ())
    (hdeps : ∀ u ∈ updates,
      checkKnown (s.tasks.map Task.id) u.id (u.dependsOn.getD []) = .ok ())
    (hproject : updates.foldlM projectStatus projected = .ok projected')
    (happly : updates.foldlM applyUpdate acc = .ok acc') :
    Applied s start projected' (updates.foldl projectDeps projDeps) acc' := by
  induction updates generalizing projected projDeps acc with
  | nil =>
    obtain rfl := Except.ok.inj hproject
    obtain rfl := Except.ok.inj happly
    exact ha
  | cons u updates ih =>
    rw [foldlM_cons] at hproject happly
    obtain ⟨projected₁, hproject₁, hproject⟩ := bind_eq_ok.mp hproject
    obtain ⟨acc₁, happly₁, happly⟩ := bind_eq_ok.mp happly
    exact ih (ha.update hkeys (hstatus u mem_cons_self) (hdeps u mem_cons_self)
      hproject₁ happly₁) (fun u hu => hstatus u (mem_cons_of_mem _ hu))
      (fun u hu => hdeps u (mem_cons_of_mem _ hu)) hproject happly

/-- An accepted update batch. -/
structure Updates (s : TaskStore) (settled : List Int) (s' : TaskStore) : Prop where
  sound : Sound s'
  origins : s'.tasks.map Task.origin = s.tasks.map Task.origin
  readings : s.readings ≤ s'.readings
  loadErr : s'.loadErr = s.loadErr
  settled : ∀ start ≤ s.readings, (∀ t ∈ s.tasks, ∀ r ∈ t.completedAt, r < start) →
    ∀ id, id ∈ settled ↔ ∃ t ∈ s'.tasks, t.id = id ∧ ∃ r ∈ t.completedAt, start ≤ r

theorem Sound.updated (h : Sound s) {updates : List TaskUpdate} {settled : List Int}
    (hok : updateLocked s updates = .ok (settled, s')) : Updates s settled s' := by
  unfold updateLocked at hok
  obtain ⟨_, hstatus, hok⟩ := bind_eq_ok.mp hok
  obtain ⟨projected, hproject, hok⟩ := bind_eq_ok.mp hok
  obtain ⟨_, hsingle, hok⟩ := bind_eq_ok.mp hok
  obtain ⟨_, hdeps, hok⟩ := bind_eq_ok.mp hok
  split at hok
  · cases hok
  · next hcycle =>
    rw [mapBy_eq_map _ h.keysNodup] at hproject
    rw [mapBy_eq_map _ h.keysNodup] at hcycle
    have hcount : projected.countP (fun p => p.2 = .taskInProgress) ≤ 1 := by
      unfold checkInProgress at hsingle
      dsimp only at hsingle
      split at hsingle
      · split at hsingle
        · cases hsingle
        · cases hsingle
      · next hle => exact Nat.le_of_not_lt hle
    have happlied : ∀ start ≤ s.readings,
        (∀ t ∈ s.tasks, ∀ r ∈ t.completedAt, r < start) →
        Applied s start projected (updates.foldl projectDeps
          (s.tasks.map fun t => (t.id, t.dependsOn))) (settled, s') := by
      intro start hstart hbefore
      have hnone : Applied s start (s.tasks.map fun t => (t.id, t.status))
          (s.tasks.map fun t => (t.id, t.dependsOn)) ([], s) := by
        refine ⟨rfl, rfl, rfl, rfl, rfl, h.known, h.completed, h.stamps, hstart, fun id => ?_⟩
        constructor
        · intro hid
          cases hid
        · rintro ⟨t, ht, _, r, hr, hle⟩
          exact absurd (hbefore t ht r hr) (Nat.not_lt_of_le hle)
      exact hnone.updates h.keysNodup ((forM_eq_ok).mp hstatus) ((forM_eq_ok).mp hdeps)
        hproject hok
    have ha := happlied s.readings (Nat.le_refl _) h.stamps
    have hids := ids_of_origins ha.origins
    refine ⟨?_, ha.origins, ha.readings, ha.loadErr,
      fun start hstart hbefore => (happlied start hstart hbefore).settled⟩
    constructor
    case sorted => exact hids ▸ h.sorted
    case bounds =>
      rw [hids, ha.nextID]
      exact h.bounds
    case nextID => exact ha.nextID ▸ h.nextID
    case single =>
      rw [← ha.statuses, countP_map] at hcount
      exact hcount
    case known =>
      rw [hids]
      exact ha.known
    case acyclic =>
      have hkeys : KeysNodup Task.id s'.tasks := by
        unfold KeysNodup
        rw [hids]
        exact h.keysNodup
      rw [← ha.deps] at hcycle
      refine rank_of_not_hasCycle (Bool.eq_false_iff.mpr hcycle) fun t ht => ?_
      apply neighbors_of_lookup
      rw [← mapBy_eq_map _ hkeys]
      exact lookup_mapBy _ hkeys ht
    case completed => exact ha.completed
    case stamps => exact ha.stamps

end Evener.TaskStore
