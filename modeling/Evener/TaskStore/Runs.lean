/-
  A task list over any calls: it stays sound, no task goes, a refused call leaves no trace, and
  while a task is open there is work that can go on.
-/
import Evener.TaskStore.Sound

namespace Evener.TaskStore

open Evener.Lib List

variable {s s' : TaskStore}

/-! ## Templates -/

theorem newTasks_dependsOn {nextID : Int} {reading : Nat} {items : List TaskInput}
    (h : ∀ item ∈ items, item.dependsOn = []) :
    ∀ t ∈ newTasks nextID reading items, t.dependsOn = [] := by
  induction items generalizing nextID reading with
  | nil => exact fun _ ht => nomatch ht
  | cons item items ih =>
    intro t ht
    rcases mem_cons.mp ht with rfl | ht
    · exact h item mem_cons_self
    · exact ih (fun i hi => h i (mem_cons_of_mem _ hi)) t ht

theorem Sound.templated (h : Sound s) (hempty : s.tasks = [])
    (templates parentTasks : List TaskTemplate) : Sound (templateTasks s templates parentTasks) := by
  unfold templateTasks
  dsimp only
  have hitems : ∀ item ∈ (expandParentTasks templates parentTasks).map (fun tt : TaskTemplate =>
      ({ type := tt.type
         description := tt.title
         prompt := tt.prompt
         reasoningEffort := tt.reasoningEffort
         insert := tt.insert } : TaskInput)), item.dependsOn = [] := by
    intro item hitem
    obtain ⟨tt, _, rfl⟩ := mem_map.mp hitem
    rfl
  generalize List.map _ (expandParentTasks templates parentTasks) = items at hitems
  obtain ⟨_, hsorted, hnew⟩ := newTasks_spec s.nextID s.readings items
  have hdeps := @newTasks_dependsOn s.nextID s.readings _ hitems
  split
  · exact h
  · next first rest hlist =>
    rw [hlist] at hsorted hnew hdeps
    have hpos := h.nextID
    have hrest : ∀ t ∈ rest, t.status = .taskOpen ∧ t.completedAt = none := fun t ht =>
      (hnew t (mem_cons_of_mem _ ht)).2.2
    constructor
    case sorted => exact hsorted
    case bounds =>
      intro id hid
      have hid' : id ∈ (first :: rest).map Task.id := hid
      obtain ⟨t, ht, rfl⟩ := mem_map.mp hid'
      have hbound := hnew t ht
      show 0 < t.id ∧ t.id < s.nextID + items.length
      omega
    case nextID =>
      show 0 < s.nextID + items.length
      omega
    case single =>
      have hnone : rest.countP (fun t => t.status = .taskInProgress) = 0 :=
        countP_eq_zero.mpr fun t ht => by simp [(hrest t ht).1]
      rw [countP_cons, hnone]
      simp
    case known =>
      intro t ht dep hdep
      rcases mem_cons.mp ht with rfl | ht
      · rw [show _ = ([] : List Int) from hdeps first mem_cons_self] at hdep
        cases hdep
      · rw [hdeps t (mem_cons_of_mem _ ht)] at hdep
        cases hdep
    case acyclic =>
      refine ⟨fun _ => 0, fun t ht dep hdep => ?_⟩
      rcases mem_cons.mp ht with rfl | ht
      · rw [show _ = ([] : List Int) from hdeps first mem_cons_self] at hdep
        cases hdep
      · rw [hdeps t (mem_cons_of_mem _ ht)] at hdep
        cases hdep
    case completed =>
      intro t ht
      rcases mem_cons.mp ht with rfl | ht
      · have hnone := (hnew first mem_cons_self).2.2.2
        show first.completedAt.isSome = false
        rw [hnone]
        rfl
      · unfold Task.terminal
        rw [(hrest t ht).1, (hrest t ht).2]
        rfl
    case stamps =>
      intro t ht r hr
      rcases mem_cons.mp ht with rfl | ht
      · have hsome : r ∈ first.completedAt := hr
        rw [(hnew first mem_cons_self).2.2.2] at hsome
        cases hsome
      · rw [(hrest t ht).2] at hr
        cases hr

/-! ## Loads -/

/-- The task without its effort. -/
def Task.stripped (t : Task) : Task := { t with reasoningEffort := "" }

theorem origins_of_stripped {l l' : List Task} (h : l.map Task.stripped = l'.map Task.stripped) :
    l.map Task.origin = l'.map Task.origin := by
  have hcomp : Task.origin ∘ Task.stripped = Task.origin := rfl
  have horigins := congrArg (List.map Task.origin) h
  rwa [map_map, map_map, hcomp] at horigins

theorem Sound.like (h : Sound s) (hsame : s'.tasks.map Task.stripped = s.tasks.map Task.stripped)
    (hbounds : ∀ id ∈ s'.tasks.map Task.id, id < s'.nextID) (hnextID : 0 < s'.nextID)
    (hreadings : s'.readings = s.readings) : Sound s' := by
  have hids := ids_of_origins (origins_of_stripped hsame)
  have hback : ∀ t ∈ s'.tasks, ∃ t₀ ∈ s.tasks, t.id = t₀.id ∧ t.dependsOn = t₀.dependsOn ∧
      t.completedAt = t₀.completedAt ∧ t.terminal = t₀.terminal := by
    intro t ht
    have hmem : t.stripped ∈ s.tasks.map Task.stripped := hsame ▸ mem_map.mpr ⟨t, ht, rfl⟩
    obtain ⟨t₀, ht₀, heq⟩ := mem_map.mp hmem
    exact ⟨t₀, ht₀, (congrArg Task.id heq).symm, (congrArg Task.dependsOn heq).symm,
      (congrArg Task.completedAt heq).symm, (congrArg Task.terminal heq).symm⟩
  constructor
  case sorted => exact hids ▸ h.sorted
  case bounds =>
    intro id hid
    exact ⟨(h.bounds id (hids ▸ hid)).1, hbounds id hid⟩
  case nextID => exact hnextID
  case single =>
    have hcount := congrArg (List.countP fun t => t.status = .taskInProgress) hsame
    rw [countP_map, countP_map] at hcount
    exact Nat.le_trans (Nat.le_of_eq hcount) h.single
  case known =>
    intro t ht dep hdep
    obtain ⟨t₀, ht₀, hid, hdeps, _⟩ := hback t ht
    rw [hids, hid]
    exact h.known t₀ ht₀ dep (hdeps ▸ hdep)
  case acyclic =>
    obtain ⟨r, hr⟩ := h.acyclic
    refine ⟨r, fun t ht dep hdep => ?_⟩
    obtain ⟨t₀, ht₀, hid, hdeps, _⟩ := hback t ht
    rw [hid]
    exact hr t₀ ht₀ dep (hdeps ▸ hdep)
  case completed =>
    intro t ht
    obtain ⟨t₀, ht₀, _, _, hcompleted, hterminal⟩ := hback t ht
    rw [hcompleted, hterminal]
    exact h.completed t₀ ht₀
  case stamps =>
    intro t ht r hr
    obtain ⟨t₀, ht₀, _, _, hcompleted, _⟩ := hback t ht
    rw [hreadings]
    exact h.stamps t₀ ht₀ r (hcompleted ▸ hr)

theorem le_maxID (tasks : List Task) (m : Int) :
    m ≤ tasks.foldl (fun maxID t => if maxID < t.id then t.id else maxID) m ∧
      ∀ t ∈ tasks, t.id ≤ tasks.foldl (fun maxID t => if maxID < t.id then t.id else maxID) m := by
  induction tasks generalizing m with
  | nil => exact ⟨Int.le_refl _, fun _ h => (nomatch h)⟩
  | cons t tasks ih =>
    rw [foldl_cons]
    obtain ⟨hle, hall⟩ := ih (if m < t.id then t.id else m)
    have hmax : m ≤ (if m < t.id then t.id else m) ∧ t.id ≤ (if m < t.id then t.id else m) := by
      split <;> omega
    refine ⟨Int.le_trans hmax.1 hle, fun t' ht' => ?_⟩
    rcases mem_cons.mp ht' with rfl | ht'
    · exact Int.le_trans hmax.2 hle
    · exact hall t' ht'

/-! ## Steps -/

variable {toLower : String → String} {w w' : World}

/-- The file holds the list, or the list is what a load made of the file. -/
structure Kept (toLower : String → String) (w : World) : Prop where
  sound : Sound w.store
  saved : w.file = some w.store.tasks ∨
    w.store.tasks = (w.file.getD []).map (Task.normalized toLower)

theorem Kept.initial : Kept toLower {} := ⟨Sound.initial, Or.inr rfl⟩

theorem Kept.stripped (h : Kept toLower w) :
    (w.file.getD []).map Task.stripped = w.store.tasks.map Task.stripped := by
  rcases h.saved with hfile | htasks
  · rw [hfile]
    rfl
  · rw [htasks, map_map]
    rfl

/-- What one call does. -/
structure Steps (toLower : String → String) (w : World) (reply : Except TaskError Reply)
    (w' : World) : Prop where
  kept : Kept toLower w'
  origins : w.store.tasks.map Task.origin <+: w'.store.tasks.map Task.origin
  refused : ∀ err, reply = .error err → w'.store.tasks = w.store.tasks ∧
    w'.store.nextID = w.store.nextID ∧ w'.file = w.file
  settled : ∀ snapshot, reply = .ok (.snapshot snapshot) →
    snapshot.before = w.store.tasks ∧ snapshot.after = w'.store.tasks ∧
    ∀ id, id ∈ snapshot.settled ↔ ∃ t ∈ snapshot.after, t.id = id ∧ t.terminal = true ∧
      ∃ r ∈ t.completedAt, w.store.readings ≤ r

theorem Steps.refuses (h : Kept toLower w) (err : TaskError) : Steps toLower w (.error err) w :=
  ⟨h, prefix_refl _, fun _ _ => ⟨rfl, rfl, rfl⟩, fun _ h => (nomatch h)⟩

theorem Steps.commits (h : Kept toLower w) {staged : TaskStore} (err : Option String)
    {reply : Reply} (hsound : Sound staged)
    (horigins : w.store.tasks.map Task.origin <+: staged.tasks.map Task.origin)
    (hsettled : ∀ snapshot, reply = .snapshot snapshot →
      snapshot.before = w.store.tasks ∧ snapshot.after = staged.tasks ∧
      ∀ id, id ∈ snapshot.settled ↔ ∃ t ∈ snapshot.after, t.id = id ∧ t.terminal = true ∧
        ∃ r ∈ t.completedAt, w.store.readings ≤ r) :
    Steps toLower w (w.commit staged err reply).1 (w.commit staged err reply).2 := by
  unfold World.commit
  cases err with
  | some err => exact Steps.refuses h _
  | none =>
    exact ⟨⟨hsound, Or.inl rfl⟩, horigins, fun _ h => (nomatch h),
      fun snapshot h => hsettled snapshot (Except.ok.inj h)⟩

/-- The settled tasks end the batch terminal: they carry a stamp. -/
theorem Updates.settled_terminal {settled : List Int} (hu : Updates s settled s') {start : Nat}
    (hstart : start ≤ s.readings) (hbefore : ∀ t ∈ s.tasks, ∀ r ∈ t.completedAt, r < start)
    (id : Int) : id ∈ settled ↔ ∃ t ∈ s'.tasks, t.id = id ∧ t.terminal = true ∧
      ∃ r ∈ t.completedAt, start ≤ r := by
  rw [hu.settled start hstart hbefore]
  constructor
  · rintro ⟨t, ht, hid, r, hr, hle⟩
    refine ⟨t, ht, hid, ?_, r, hr, hle⟩
    rw [← hu.sound.completed t ht, Option.mem_def.mp hr]
    rfl
  · rintro ⟨t, ht, hid, _, hr⟩
    exact ⟨t, ht, hid, hr⟩

theorem Kept.load (h : Kept toLower w) (err : Option String) :
    Steps toLower w (w.load toLower err).1 (w.load toLower err).2 := by
  unfold World.load
  cases err with
  | some err =>
    refine ⟨⟨?_, h.saved⟩, prefix_refl _, fun _ _ => ⟨rfl, rfl, rfl⟩,
      fun _ h => (nomatch h)⟩
    exact h.sound.like rfl (fun id hid => (h.sound.bounds id hid).2) h.sound.nextID rfl
  | none =>
    have hsame : ((w.file.getD []).map (Task.normalized toLower)).map Task.stripped =
        w.store.tasks.map Task.stripped := by
      rw [← h.stripped, map_map]
      rfl
    obtain ⟨hpos, hmax⟩ := le_maxID ((w.file.getD []).map (Task.normalized toLower)) 0
    refine ⟨⟨?_, Or.inr rfl⟩, ?_, fun _ h => (nomatch h), fun _ h => (nomatch h)⟩
    · refine h.sound.like hsame (fun id hid => ?_) (Int.lt_add_one_of_le hpos) rfl
      obtain ⟨t, ht, rfl⟩ := mem_map.mp hid
      exact Int.lt_add_one_of_le (hmax t ht)
    · show _ <+: ((w.file.getD []).map (Task.normalized toLower)).map Task.origin
      exact origins_of_stripped hsame ▸ prefix_refl _

theorem Kept.step (h : Kept toLower w) (op : Op) :
    Steps toLower w (step toLower w op).1 (step toLower w op).2 := by
  unfold TaskStore.step
  split
  case h_1 => exact h.load _
  case h_2 => exact Steps.refuses h _
  case h_3 templates parentTasks err _ =>
    split
    · exact ⟨h, prefix_refl _, fun _ _ => ⟨rfl, rfl, rfl⟩, fun _ h => (nomatch h)⟩
    · next hempty =>
      have hnil : w.store.tasks = [] := by simpa using hempty
      refine Steps.commits h err (h.sound.templated hnil templates parentTasks) ?_
        fun _ h => (nomatch h)
      rw [hnil]
      exact nil_prefix
  case h_4 items err _ =>
    split
    · exact Steps.refuses h _
    · next added staged hok =>
      have hadd := h.sound.appended hok
      refine Steps.commits h err hadd.sound ?_ fun _ h => (nomatch h)
      rw [hadd.tasks, map_append]
      exact prefix_append _ _
  case h_5 updates err _ =>
    split
    · exact Steps.refuses h _
    · next settled staged hok =>
      have hupdate := h.sound.updated hok
      refine Steps.commits h err hupdate.sound (hupdate.origins ▸ prefix_refl _) ?_
      rintro _ ⟨rfl⟩
      exact ⟨rfl, rfl, hupdate.settled_terminal (Nat.le_refl _) h.sound.stamps⟩
  case h_6 adds updates err _ =>
    dsimp only
    split
    · exact Steps.refuses h _
    · next settled staged hok =>
      obtain ⟨_, _, hok⟩ := bind_eq_ok.mp hok
      obtain ⟨⟨added, between⟩, happend, hok⟩ := bind_eq_ok.mp hok
      have hadd := h.sound.appended happend
      have hupdate := hadd.sound.updated hok
      refine Steps.commits h err hupdate.sound ?_ ?_
      · rw [hupdate.origins, hadd.tasks, map_append]
        exact prefix_append _ _
      · rintro _ ⟨rfl⟩
        refine ⟨rfl, rfl, hupdate.settled_terminal hadd.readings fun t ht r hr => ?_⟩
        rw [hadd.tasks] at ht
        rcases mem_append.mp ht with ht | ht
        · exact h.sound.stamps t ht r hr
        · rw [hadd.fresh t ht] at hr
          cases hr

theorem Kept.run (ops : List Op) : Kept toLower (run toLower ops) := by
  have hfold : ∀ w, Kept toLower w →
      Kept toLower (ops.foldl (fun w op => (TaskStore.step toLower w op).2) w) := by
    induction ops with
    | nil => exact fun _ h => h
    | cons op ops ih => exact fun w h => ih _ (h.step op).kept
  exact hfold {} Kept.initial

/-! ## Work that can go on -/

theorem mem_nextEligible {tasks : List Task} (hkeys : KeysNodup Task.id tasks) {t : Task}
    (ht : t ∈ tasks) (hopen : t.status = .taskOpen)
    (hready : ∀ dep ∈ t.dependsOn, ∃ d ∈ tasks, d.id = dep ∧ d.terminal = true) :
    t ∈ nextEligible tasks := by
  refine mem_filter.mpr ⟨ht, decide_eq_true ⟨hopen, ?_⟩⟩
  apply all_eq_true.mpr
  intro dep hdep
  obtain ⟨d, hd, rfl, hterminal⟩ := hready dep hdep
  rw [lookup_mapBy Task.status hkeys hd]
  simpa [Task.terminal] using hterminal

/-- The induction is on the rank that falls along the dependencies. -/
theorem Sound.progress (h : Sound s) {t : Task} (ht : t ∈ s.tasks) (hopen : t.status = .taskOpen) :
    (∃ u ∈ s.tasks, u.status = .taskInProgress) ∨ nextEligible s.tasks ≠ [] := by
  obtain ⟨r, hr⟩ := h.acyclic
  induction hn : r t.id using Nat.strongRecOn generalizing t with
  | ind n ih =>
    by_cases hready : ∀ dep ∈ t.dependsOn, ∃ d ∈ s.tasks, d.id = dep ∧ d.terminal = true
    · exact Or.inr (ne_nil_of_mem (mem_nextEligible h.keysNodup ht hopen hready))
    · push Not at hready
      obtain ⟨dep, hdep, hwaits⟩ := hready
      obtain ⟨d, hd, rfl⟩ := mem_map.mp (h.known t ht dep hdep).2
      have hstatus := hwaits d hd rfl
      cases hd' : d.status with
      | taskOpen => exact ih (r d.id) (hn ▸ hr t ht d.id hdep) hd hd' rfl
      | taskInProgress => exact Or.inl ⟨d, hd, hd'⟩
      | taskDone => simp [Task.terminal, hd'] at hstatus
      | taskCancelled => simp [Task.terminal, hd'] at hstatus

/-! ## The task list -/

/-- The task `x` waits for the task `y`. -/
def Depends (tasks : List Task) (x y : Int) : Prop := ∃ t ∈ tasks, t.id = x ∧ y ∈ t.dependsOn

theorem Sound.not_transGen (h : Sound s) (x : Int) :
    ¬ Relation.TransGen (Depends s.tasks) x x := by
  obtain ⟨r, hr⟩ := h.acyclic
  refine not_transGen_of_rank (r := r) (fun y z hyz => ?_) x
  obtain ⟨t, ht, rfl, hdep⟩ := hyz
  exact hr t ht z hdep

/-- What holds of the list of a store at any time. -/
structure WellKept (s : TaskStore) : Prop where
  ids : (s.tasks.map Task.id).Pairwise (· < ·) ∧ ∀ id ∈ s.tasks.map Task.id, 0 < id ∧ id < s.nextID
  inProgress : s.tasks.countP (fun t => t.status = .taskInProgress) ≤ 1
  dependencies : ∀ t ∈ s.tasks, ∀ dep ∈ t.dependsOn, dep ≠ t.id ∧ dep ∈ s.tasks.map Task.id
  acyclic : ∀ x, ¬ Relation.TransGen (Depends s.tasks) x x
  completed : ∀ t ∈ s.tasks,
    t.completedAt.isSome = true ↔ t.status = .taskDone ∨ t.status = .taskCancelled
  progress : (∃ t ∈ s.tasks, t.status = .taskOpen) →
    (∃ t ∈ s.tasks, t.status = .taskInProgress) ∨ nextEligible s.tasks ≠ []

theorem Sound.wellKept (h : Sound s) : WellKept s where
  ids := ⟨h.sorted, h.bounds⟩
  inProgress := h.single
  dependencies := h.known
  acyclic := h.not_transGen
  completed t ht := by
    rw [h.completed t ht]
    simp [Task.terminal]
  progress := fun ⟨_, ht, hopen⟩ => h.progress ht hopen

theorem task_list_kept (toLower : String → String) (ops : List Op) :
    let w := run toLower ops
    WellKept w.store ∧ ∀ op,
      let reply := (step toLower w op).1
      let w' := (step toLower w op).2
      w.store.tasks.map Task.origin <+: w'.store.tasks.map Task.origin ∧
      (∀ err, reply = .error err → w'.store.tasks = w.store.tasks ∧
        w'.store.nextID = w.store.nextID ∧ w'.file = w.file) ∧
      (∀ snapshot, reply = .ok (.snapshot snapshot) →
        snapshot.before = w.store.tasks ∧ snapshot.after = w'.store.tasks ∧
        ∀ id, id ∈ snapshot.settled ↔ ∃ t ∈ snapshot.after, t.id = id ∧
          (t.status = .taskDone ∨ t.status = .taskCancelled) ∧
          ∃ r ∈ t.completedAt, w.store.readings ≤ r) ∧
      (∀ r, reply = .ok r → (w'.load toLower none).1 = .ok .done ∧
        ((w'.load toLower none).2.store.tasks = w'.store.tasks.map (Task.normalized toLower) ∨
          (w'.load toLower none).2.store.tasks = w'.store.tasks)) := by
  intro w
  have hkept : Kept toLower w := Kept.run ops
  refine ⟨hkept.sound.wellKept, fun op => ?_⟩
  have hstep := hkept.step op
  refine ⟨hstep.origins, hstep.refused, fun snapshot hreply => ?_, fun r _ => ⟨rfl, ?_⟩⟩
  · obtain ⟨hbefore, hafter, hsettled⟩ := hstep.settled snapshot hreply
    refine ⟨hbefore, hafter, fun id => (hsettled id).trans ?_⟩
    simp [Task.terminal]
  · -- a load reads the file, which holds the list or is what the list was made of
    rcases hstep.kept.saved with hfile | htasks
    · left
      unfold World.load
      rw [hfile]
      rfl
    · exact Or.inr htasks.symm

/-- An effort that no provider knows is kept until the list is loaded. -/
theorem append_not_loaded :
    let w := run id [.append [{ description := "task", reasoningEffort := "fast" }] none]
    (step id {} (.append [{ description := "task", reasoningEffort := "fast" }] none)).1.isOk =
        true ∧
      (step id w (.load none)).1 = .ok .done ∧
      (step id w (.load none)).2.store.tasks ≠ w.store.tasks := by
  decide

end Evener.TaskStore
