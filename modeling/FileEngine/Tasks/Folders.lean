import FileEngine.Storage.Local
import FileEngine.Tasks.System

/-!
# Folder tasks

`create_folder` tasks on the local backend, when no call fails by itself. A task succeeds
exactly if its parameters are there and no file of the tree before the first task stands
in its way, and the tree after any tasks is the one before with the directories of those
that succeed (`processAll_spec`). So neither the order of the tasks nor their repetition
matters (`folder_tasks_commute`).
-/

namespace FileEngine.Tasks

open Go Os Local Queue

/-! ## Runs of folder tasks -/

/-- Process some tasks one after the other. -/
def processAll {σ : Type} (st : Storage σ) : List TaskPayload → σ → List (Except Str Unit) × σ
  | [], s => ([], s)
  | t :: ts, s =>
      let (result, s) := process st t s
      let (results, s) := processAll st ts s
      (result :: results, s)

/-- The path of a `create_folder` task. -/
def folderOf (t : TaskPayload) : Str :=
  trimSuffix (param t (str "parent")) [slash] ++ [slash] ++ param t (str "name")

/-- The parameters are there and no file is in the way. -/
def Feasible (s : LocalStorage) (t : FS) (task : TaskPayload) : Prop :=
  param task (str "parent") ≠ [] ∧ param task (str "name") ≠ [] ∧
    ¬ Obstructed t (locate (s.full (folderOf task)))

section

variable (s : LocalStorage) (host : Host)

/-- One task: it makes its directory, or it fails and changes nothing. -/
theorem process_folder {task : TaskPayload} (htype : task.type = str "create_folder") (t : FS) :
    let result := process (s.on host) task t
    (Feasible s t task ∧ result.1 = .ok () ∧ Makes (locate (s.full (folderOf task))) t result.2) ∨
      (¬ Feasible s t task ∧ (∃ e, result.1 = .error e) ∧ ∀ k, SameAt k t result.2) := by
  intro result
  by_cases hparams : param task (str "parent") = [] ∨ param task (str "name") = []
  · have hresult : result = (.error (str "missing params"), t) := by
      simp only [result, process, htype, if_true, hparams]
    rw [hresult]
    refine Or.inr ⟨?_, ⟨_, rfl⟩, fun k => .refl k t⟩
    rintro ⟨hparent, hname, _⟩
    exact hparams.elim hparent hname
  · have hresult : result = host.run (s.createFolder (folderOf task)) t := by
      simp only [result, process, htype, if_true, hparams, if_false]
      rfl
    obtain ⟨hparent, hname⟩ := not_or.mp hparams
    have hvalue :
        (Prog.run (s.createFolder (folderOf task)).run (fun _ => .smooth host.rand) t).value =
          (t.mkdirAll (.smooth host.rand) (s.full (folderOf task))).1 := rfl
    rw [hresult]
    rcases mkdirAll_smooth t host.rand (s.full (folderOf task)) with
      ⟨hfile, ⟨e, herr⟩, hsame⟩ | ⟨hfree, hok, hmakes⟩
    · refine Or.inr ⟨fun h => h.2.2 hfile, ⟨host.message e, ?_⟩, hsame⟩
      simp only [Host.run, hvalue, herr]
      rfl
    · refine Or.inl ⟨⟨hparent, hname, hfree⟩, ?_, hmakes⟩
      simp only [Host.run, hvalue, hok]
      rfl

/-- A task does not change which tasks are feasible. -/
theorem feasible_process {task : TaskPayload} (htype : task.type = str "create_folder") (t : FS)
    (other : TaskPayload) :
    Feasible s (process (s.on host) task t).2 other ↔ Feasible s t other := by
  have hfiles : ∀ way, Obstructed (process (s.on host) task t).2 way ↔ Obstructed t way := by
    intro way
    rcases process_folder s host htype t with ⟨hfeasible, _, hmakes⟩ | ⟨_, _, hsame⟩
    · exact hmakes.obstructed_iff hfeasible.2.2 way
    · exact obstructed_congr (fun k => (hsame k).1) way
  simp only [Feasible, hfiles]

/-- On the way to the directory of a task that succeeds. -/
def Reached (t : FS) (tasks : List TaskPayload) (k : Loc) : Prop :=
  ∃ task ∈ tasks, Feasible s t task ∧ k <+: locate (s.full (folderOf task))

/-- **Closed form of folder tasks.** What a run of tasks does is said by the tree before it:
the tasks that succeed are the feasible ones, and their directories are what is new. -/
theorem processAll_spec {tasks : List TaskPayload}
    (htypes : ∀ task ∈ tasks, task.type = str "create_folder") (t : FS) :
    let result := processAll (s.on host) tasks t
    List.Forall₂ (fun task r => r.isOk = true ↔ Feasible s t task) tasks result.1 ∧
      (∀ k, Reached s t tasks k → result.2.node k = some .dir) ∧
      ∀ k, ¬ Reached s t tasks k → SameAt k t result.2 := by
  induction tasks generalizing t with
  | nil =>
    refine ⟨.nil, ?_, fun k _ => .refl k t⟩
    rintro k ⟨task, hmem, _⟩
    cases hmem
  | cons task tasks ih =>
    obtain ⟨hresults, hdirs, hsame⟩ := ih (fun task h => htypes task (.tail _ h))
      (process (s.on host) task t).2
    have htask := htypes task (.head _)
    simp only [Reached, feasible_process s host htask] at hresults hdirs hsame
    rcases process_folder s host htask t with ⟨hfeasible, hok, hmakes⟩ | ⟨hnot, ⟨e, herr⟩, hstill⟩
    · have hhead : (process (s.on host) task t).1.isOk = true ↔ Feasible s t task := by
        rw [hok]
        exact ⟨fun _ => hfeasible, fun _ => rfl⟩
      refine ⟨.cons hhead hresults, ?_, ?_⟩
      · intro k hk
        by_cases hlater : Reached s t tasks k
        · exact hdirs k hlater
        · obtain ⟨first, hfirst, hreach⟩ := hk
          have hway : k <+: locate (s.full (folderOf task)) := by
            rcases List.mem_cons.mp hfirst with rfl | hmem
            · exact hreach.2
            · exact absurd ⟨first, hmem, hreach⟩ hlater
          exact (hsame k hlater).1.trans (hmakes.1 k hway)
      · intro k hk
        have hlater : ¬ Reached s t tasks k := fun ⟨other, hmem, h⟩ => hk ⟨other, .tail _ hmem, h⟩
        have hway : ¬ k <+: locate (s.full (folderOf task)) := fun h =>
          hk ⟨task, .head _, hfeasible, h⟩
        exact (hmakes.2 k hway).trans (hsame k hlater)
    · have hhead : (process (s.on host) task t).1.isOk = true ↔ Feasible s t task := by
        rw [herr]
        exact ⟨fun h => (Bool.false_ne_true h).elim, fun h => absurd h hnot⟩
      have hsplit : ∀ k, Reached s t (task :: tasks) k ↔ Reached s t tasks k := by
        simp [Reached, hnot]
      refine ⟨.cons hhead hresults, ?_, ?_⟩
      · exact fun k hk => hdirs k ((hsplit k).mp hk)
      · exact fun k hk => (hstill k).trans (hsame k (fun h => hk ((hsplit k).mpr h)))

/-- **Folder tasks commute and are idempotent.** Two runs over the same tasks, in any order and
with any of them repeated at any point, end in the same tree, and each task succeeds in
every place where it stands or fails in every one. -/
theorem folder_tasks_commute (t : FS) (ps qs : List TaskPayload)
    (htypes : ∀ task ∈ ps, task.type = str "create_folder")
    (hmembers : ∀ task, task ∈ ps ↔ task ∈ qs) :
    let one := processAll (s.on host) ps t
    let other := processAll (s.on host) qs t
    (∃ succeeds : TaskPayload → Prop,
      List.Forall₂ (fun task r => r.isOk = true ↔ succeeds task) ps one.1 ∧
      List.Forall₂ (fun task r => r.isOk = true ↔ succeeds task) qs other.1) ∧
    ∀ k, one.2.look k = other.2.look k := by
  intro one other
  obtain ⟨hresults, hdirs, hsame⟩ := processAll_spec s host htypes t
  obtain ⟨hresults', hdirs', hsame'⟩ := processAll_spec s host
    (fun task h => htypes task ((hmembers task).mpr h)) t
  have hreached : ∀ k, Reached s t ps k ↔ Reached s t qs k := by
    simp only [Reached, hmembers, implies_true]
  refine ⟨⟨Feasible s t, hresults, hresults'⟩, fun k => ?_⟩
  by_cases hk : Reached s t ps k
  · rw [FS.look_dir (hdirs k hk), FS.look_dir (hdirs' k ((hreached k).mp hk))]
  · rw [(hsame k hk).look, (hsame' k (fun h => hk ((hreached k).mpr h))).look]

end

def folderTask (parent name : Str) : TaskPayload :=
  ⟨[], str "create_folder", createFolderParams parent name (str "u")⟩

/-- A folder and one in it, made from the inner one as well. -/
theorem folder_tasks_commute_nested :
    let st := LocalStorage.on ⟨str "/srv"⟩ ⟨fun _ => [], [], fun _ => 0⟩
    let outer := folderTask (str "/") (str "a")
    let inner := folderTask (str "/a") (str "b")
    outer.type = str "create_folder" ∧ inner.type = str "create_folder" ∧
      ∀ k, (processAll st [outer, inner] .empty).2.look k =
        (processAll st [inner, outer, inner] .empty).2.look k := by
  intro st outer inner
  refine ⟨rfl, rfl, (folder_tasks_commute _ _ .empty [outer, inner] _ ?_ ?_).2⟩
  · intro task htask
    rcases List.mem_pair.mp htask with rfl | rfl <;> rfl
  · intro task
    simp only [List.mem_cons, List.not_mem_nil, or_false]
    tauto

end FileEngine.Tasks
