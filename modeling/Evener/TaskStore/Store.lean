/-
  The task list of a session: additions, updates and batches, saved as one JSON file.

  A time is the number of a clock reading; those of a refused call are given out again.
-/
import Evener.Lib.KeyedList
import Evener.Lib.CheckedFold
import Evener.Lib.DepthFirst
import Evener.Lib.Text

namespace Evener.TaskStore

open Evener.Lib

inductive TaskStatus where
  | taskOpen
  | taskInProgress
  | taskDone
  | taskCancelled
deriving DecidableEq

/-- Only these four texts are statuses. -/
def TaskStatus.ofText (status : String) : Option TaskStatus :=
  if status = "open" then some .taskOpen
  else if status = "in_progress" then some .taskInProgress
  else if status = "done" then some .taskDone
  else if status = "cancelled" then some .taskCancelled
  else none

structure Task where
  id : Int
  type : String
  description : String
  prompt : String
  status : TaskStatus := .taskOpen
  dependsOn : List Int := []
  notes : List String := []
  reasoningEffort : String
  insert : String
  createdAt : Option Nat := none
  updatedAt : Option Nat := none
  completedAt : Option Nat := none
deriving DecidableEq

def Task.terminal (t : Task) : Bool := t.status = .taskDone || t.status = .taskCancelled

structure TaskTemplate where
  title : String
  prompt : String := ""
  reasoningEffort : String := ""
  type : String := ""
  insert : String := ""
deriving DecidableEq

structure TaskInput where
  type : String := ""
  description : String
  prompt : String := ""
  dependsOn : List Int := []
  reasoningEffort : String := ""
  insert : String := ""
deriving DecidableEq

/-- No text is no change; `dependsOn` is no change where it is `none`. -/
structure TaskUpdate where
  id : Int
  status : String := ""
  notes : String := ""
  dependsOn : Option (List Int) := none
  reasoningEffort : String := ""
deriving DecidableEq

structure TaskUpdateSnapshot where
  before : List Task
  after : List Task
  settled : List Int
deriving DecidableEq

inductive TaskError where
  | unavailable (loadErr : String)
  | read (err : String)
  | save (err : String)
  | selfDependency (taskID : Int)
  | unknownDependency (taskID dep : Int)
  | createsCycle (taskID : Int)
  | updateCreatesCycle
  | invalidStatus (status : String) (taskID : Int)
  | unknownTask (taskID : Int)
  | otherInProgress (blocker : Int) (description : String)
  | severalInProgress (count : Nat)
deriving DecidableEq

structure TaskStore where
  tasks : List Task := []
  nextID : Int := 1
  loadErr : Option String := none
  readings : Nat := 0
deriving DecidableEq

/-! ## Dependencies -/

/-- The map of the tasks by id. -/
def mapBy {α : Type} (f : Task → α) (tasks : List Task) : List (Int × α) :=
  tasks.foldl (fun m t => put Prod.fst (t.id, f t) m) []

def neighbors (adj : List (Int × List Int)) (node : Int) : List Int :=
  ((lookup Prod.fst node adj).map Prod.snd).getD []

def hasCycle (adj : List (Int × List Int)) : Bool := hasBackEdge (neighbors adj) (adj.map Prod.fst)

/-- Every dependency is a known task and not the task itself. -/
def checkKnown (known : List Int) (taskID : Int) (deps : List Int) : Except TaskError Unit :=
  deps.forM fun dep =>
    if dep = taskID then .error (.selfDependency taskID)
    else if dep ∉ known then .error (.unknownDependency taskID dep)
    else .ok ()

def validateDependencies (tasks : List Task) (taskID : Int) (deps : List Int)
    (pending : List Task) : Except TaskError Unit := do
  checkKnown ((tasks ++ pending).map Task.id) taskID deps
  let adj := put Prod.fst (taskID, deps)
    (mapBy Task.dependsOn ((tasks ++ pending).filter fun t => t.id ≠ taskID))
  if hasCycle adj then .error (.createsCycle taskID) else .ok ()

/-! ## Additions -/

def defaultType (type : String) : String := if type = "" then "implement" else type

def newTasks : Int → Nat → List TaskInput → List Task
  | _, _, [] => []
  | nextID, reading, item :: items =>
    { id := nextID
      type := defaultType item.type
      description := item.description
      prompt := item.prompt
      dependsOn := item.dependsOn
      reasoningEffort := item.reasoningEffort
      insert := item.insert
      createdAt := some reading
      updatedAt := some reading } :: newTasks (nextID + 1) (reading + 1) items

def appendLocked (s : TaskStore) (items : List TaskInput) :
    Except TaskError (List Task × TaskStore) := do
  let added := newTasks s.nextID s.readings items
  added.forM fun t =>
    if t.dependsOn = [] then .ok ()
    else validateDependencies s.tasks t.id t.dependsOn (added.filter fun p => p.id ≠ t.id)
  return (added,
    { s with
      tasks := s.tasks ++ added
      nextID := s.nextID + items.length
      readings := s.readings + items.length })

def expandParentTasks (templates parentTasks : List TaskTemplate) : List TaskTemplate :=
  if parentTasks.isEmpty then templates
  else
    let out := templates.flatMap fun tt => if tt.insert = "parent_tasks" then parentTasks else [tt]
    if templates.any fun tt => tt.insert = "parent_tasks" then out else out ++ parentTasks

/-- The tasks of templates; the first one is started. -/
def templateTasks (s : TaskStore) (templates parentTasks : List TaskTemplate) : TaskStore :=
  let items := (expandParentTasks templates parentTasks).map fun tt : TaskTemplate =>
    ({ type := tt.type
       description := tt.title
       prompt := tt.prompt
       reasoningEffort := tt.reasoningEffort
       insert := tt.insert } : TaskInput)
  match newTasks s.nextID s.readings items with
  | [] => s
  | first :: rest =>
    { s with
      tasks :=
        { first with
          status := .taskInProgress
          updatedAt := some (s.readings + items.length) } :: rest
      nextID := s.nextID + items.length
      readings := s.readings + items.length + 1 }

/-! ## Updates -/

/-- The task after the update, at a clock reading. -/
def Task.updated (t : Task) (u : TaskUpdate) (ts : Nat) : Task :=
  let status := TaskStatus.ofText u.status
  { t with
    status := status.getD t.status
    notes := if u.notes = "" then t.notes else t.notes ++ [u.notes]
    dependsOn := u.dependsOn.getD t.dependsOn
    reasoningEffort := if u.reasoningEffort = "" then t.reasoningEffort else u.reasoningEffort
    updatedAt := some ts
    completedAt :=
      if status = some .taskDone ∨ status = some .taskCancelled then
        if status = some t.status then t.completedAt else some ts
      else if u.status = "" then t.completedAt
      else none }

/-- What the update does to the set of settled tasks. -/
def resettled (settled : List Int) (t : Task) (u : TaskUpdate) : List Int :=
  let status := TaskStatus.ofText u.status
  if status = some .taskDone ∨ status = some .taskCancelled then
    if status = some t.status then settled else u.id :: settled.filter fun id => id ≠ u.id
  else if u.status = "" then settled
  else settled.filter fun id => id ≠ u.id

def applyUpdate (acc : List Int × TaskStore) (u : TaskUpdate) :
    Except TaskError (List Int × TaskStore) :=
  match lookup Task.id u.id acc.2.tasks with
  | none => .error (.unknownTask u.id)
  | some t =>
    .ok (resettled acc.1 t u,
      { acc.2 with
        tasks := put Task.id (t.updated u acc.2.readings) acc.2.tasks
        readings := acc.2.readings + 1 })

def projectStatus (projected : List (Int × TaskStatus)) (u : TaskUpdate) :
    Except TaskError (List (Int × TaskStatus)) :=
  if (lookup Prod.fst u.id projected).isNone then .error (.unknownTask u.id)
  else
    match TaskStatus.ofText u.status with
    | none => .ok projected
    | some status => .ok (put Prod.fst (u.id, status) projected)

def projectDeps (projDeps : List (Int × List Int)) (u : TaskUpdate) : List (Int × List Int) :=
  match u.dependsOn with
  | none => projDeps
  | some deps => put Prod.fst (u.id, deps) projDeps

def checkStatus (u : TaskUpdate) : Except TaskError Unit :=
  if u.status = "" ∨ (TaskStatus.ofText u.status).isSome then .ok ()
  else .error (.invalidStatus u.status u.id)

def checkInProgress (tasks : List Task) (projected : List (Int × TaskStatus)) :
    Except TaskError Unit :=
  let inProgressCount := projected.countP fun p => p.2 = .taskInProgress
  if 1 < inProgressCount then
    match tasks.filter fun t => t.status = .taskInProgress ∧
        (lookup Prod.fst t.id projected).map Prod.snd = some .taskInProgress with
    | [blocker] => .error (.otherInProgress blocker.id blocker.description)
    | _ => .error (.severalInProgress inProgressCount)
  else .ok ()

def updateLocked (s : TaskStore) (updates : List TaskUpdate) :
    Except TaskError (List Int × TaskStore) := do
  updates.forM checkStatus
  let projected ← updates.foldlM projectStatus (mapBy Task.status s.tasks)
  checkInProgress s.tasks projected
  let projDeps := updates.foldl projectDeps (mapBy Task.dependsOn s.tasks)
  updates.forM fun u => checkKnown (s.tasks.map Task.id) u.id (u.dependsOn.getD [])
  if hasCycle projDeps then .error .updateCreatesCycle
  else updates.foldlM applyUpdate ([], s)

def validateUpdateIDsLocked (tasks : List Task) (updates : List TaskUpdate) :
    Except TaskError Unit :=
  updates.forM fun u =>
    if u.id ∉ tasks.map Task.id then .error (.unknownTask u.id)
    else (u.dependsOn.getD []).forM fun dep =>
      if dep ∉ tasks.map Task.id then .error (.unknownDependency u.id dep) else .ok ()

/-! ## The store and its file -/

structure World where
  store : TaskStore := {}
  file : Option (List Task) := none
deriving DecidableEq

/-- `err` is how saving or reading the file fails. -/
inductive Op where
  | populateFromTemplates (templates parentTasks : List TaskTemplate) (err : Option String)
  | append (items : List TaskInput) (err : Option String)
  | updateWithSnapshot (updates : List TaskUpdate) (err : Option String)
  | applyBatch (adds : List TaskInput) (updates : List TaskUpdate) (err : Option String)
  | load (err : Option String)
deriving DecidableEq

inductive Reply where
  | done
  | added (tasks : List Task)
  | snapshot (snapshot : TaskUpdateSnapshot)
deriving DecidableEq

/-- Save the staged store, and only then keep it. -/
def World.commit (w : World) (staged : TaskStore) (err : Option String) (reply : Reply) :
    Except TaskError Reply × World :=
  match err with
  | some err => (.error (.save err), w)
  | none => (.ok reply, { store := staged, file := some staged.tasks })

section Load

variable (toLower : String → String)

def normalizeReasoningEffort (effort : String) : String :=
  let v := toLower (trimSpace effort)
  if v = "none" ∨ v = "null" ∨ v = "off" ∨ v = "false" ∨ v = "0" then "none" else v

def validReasoningEffort (effort : String) : Bool :=
  let v := toLower (trimSpace effort)
  v = "" || v = "none" || ["minimal", "low", "medium", "high", "xhigh", "max"].contains v

/-- What a load makes of a task's effort. -/
def Task.normalized (t : Task) : Task :=
  let effort := normalizeReasoningEffort toLower t.reasoningEffort
  { t with reasoningEffort := if validReasoningEffort toLower effort then effort else "" }

def World.load (w : World) (err : Option String) : Except TaskError Reply × World :=
  match err with
  | some err => (.error (.read err), { w with store := { w.store with loadErr := some err } })
  | none =>
    let tasks := (w.file.getD []).map (Task.normalized toLower)
    let maxID := tasks.foldl (fun maxID t => if maxID < t.id then t.id else maxID) 0
    (.ok .done,
      { w with store := { w.store with tasks := tasks, nextID := maxID + 1, loadErr := none } })

def step (w : World) (op : Op) : Except TaskError Reply × World :=
  match op, w.store.loadErr with
  | .load err, _ => w.load toLower err
  | _, some loadErr => (.error (.unavailable loadErr), w)
  | .populateFromTemplates templates parentTasks err, none =>
    if !w.store.tasks.isEmpty then (.ok .done, w)
    else w.commit (templateTasks w.store templates parentTasks) err .done
  | .append items err, none =>
    match appendLocked w.store items with
    | .error err => (.error err, w)
    | .ok (added, staged) => w.commit staged err (.added added)
  | .updateWithSnapshot updates err, none =>
    match updateLocked w.store updates with
    | .error err => (.error err, w)
    | .ok (settled, staged) =>
      w.commit staged err (.snapshot ⟨w.store.tasks, staged.tasks, settled⟩)
  | .applyBatch adds updates err, none =>
    let staged := do
      validateUpdateIDsLocked w.store.tasks updates
      let (_, staged) ← appendLocked w.store adds
      updateLocked staged updates
    match staged with
    | .error err => (.error err, w)
    | .ok (settled, staged) =>
      w.commit staged err (.snapshot ⟨w.store.tasks, staged.tasks, settled⟩)

def run (ops : List Op) : World := ops.foldl (fun w op => (step toLower w op).2) {}

end Load

/-- The open tasks whose dependencies are all done or cancelled. -/
def nextEligible (tasks : List Task) : List Task :=
  tasks.filter fun t => t.status = .taskOpen ∧ t.dependsOn.all fun dep =>
    let status := (lookup Prod.fst dep (mapBy Task.status tasks)).map Prod.snd
    status = some .taskDone ∨ status = some .taskCancelled

end Evener.TaskStore
