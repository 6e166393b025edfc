import FileEngine.Deployment.Authority

/-!
# The deployed system with its JSON

The server writes tasks with `json.Marshal` and the workers read them with `json.Unmarshal`.
Every task of a run is then a `create_folder` task with the ID and the arguments of its call,
where only bytes that are not valid UTF-8 have been replaced (`processed_as_asked`).
-/

namespace FileEngine.Deployment

open Go Auth Authz Queue

variable {ι σ : Type}

/-- The task that a worker finds in the list for a call. -/
def Folder.task (f : Folder) : TaskPayload :=
  ⟨formatTime f.env.now, str "create_folder",
    createFolderParams (repair f.parentPath) (repair f.folderName) (repair f.requestedBy)⟩

/-- A `create_folder` task comes to `CreateFolder`, or to nothing. -/
theorem process_folderTask (st : Storage σ) (f : Folder) (s : σ) :
    Tasks.process st f.task s = (.error (str "missing params"), s) ∨
      Tasks.process st f.task s = st.createFolder (Tasks.folderOf f.task) s := by
  have htype : f.task.type = str "create_folder" := rfl
  unfold Tasks.process
  rw [if_pos htype]
  dsimp only
  split
  · exact Or.inl rfl
  · exact Or.inr rfl

/-- In the list there are only `create_folder` tasks. -/
def FoldersOnly (d : Wiring σ) : Prop :=
  ∀ f raw, Folder.raw d f = some raw → d.unmarshal raw = f.task

theorem foldersOnly_json (lib : JwtLib) (verifier : JWTVerifier) (backend : Storage σ)
    (foldRune : Nat → Nat) : FoldersOnly (jsonWiring lib verifier backend foldRune) := by
  intro f raw h
  obtain ⟨_, hraw⟩ := raw_eq_some h
  obtain rfl := Except.ok.inj hraw
  have hread := unmarshal_createFolder foldRune
    (jsonWiring lib verifier backend foldRune).marshal f.env.now f.parentPath f.folderName
    f.requestedBy
  exact congrArg Prod.fst hread

variable [DecidableEq ι]

/-- A worker that holds a task holds that of an accepted call. -/
theorem holding_task {d : Wiring σ} (hd : FoldersOnly d) {store : σ} {acl : ACLStore}
    {actions : List (Action ι)} {w : World ι σ} {log : List (Event ι)}
    (hexec : (step d).exec actions (World.init store acl) = some (w, log)) {i : ι} {k : Nat}
    {task : TaskPayload} (h : w.worker i = .holding k task) :
    ∃ f, (accepted d log)[k]? = some f ∧ task = f.task := by
  obtain ⟨f, raw, hf, hraw, rfl⟩ := holding_asked hexec h
  exact ⟨f, hf, hd f raw hraw⟩

/-- **Every task is processed as it was asked for.** With the JSON of the program, in every run
that starts with an empty queue: the task with the ticket `k` that a worker hands to the
processor is the `create_folder` task of the `k`-th accepted call, with the ID of that call and
with its arguments, in which at most bytes that are not valid UTF-8 were replaced; so it is the
very payload that was enqueued if the arguments are valid. -/
theorem processed_as_asked (lib : JwtLib) (verifier : JWTVerifier) (backend : Storage σ)
    (foldRune : Nat → Nat) (store : σ) (acl : ACLStore) (actions : List (Action ι))
    (w : World ι σ) (log : List (Event ι))
    (hexec : (step (jsonWiring lib verifier backend foldRune)).exec actions
      (World.init store acl) = some (w, log)) :
    ∀ before i k task result after,
      log = before ++ .task (.processed i k task result) :: after →
      ∃ f, (accepted (jsonWiring lib verifier backend foldRune) before)[k]? = some f ∧
        task = f.task ∧
        (ValidUtf8 f.parentPath → ValidUtf8 f.folderName → ValidUtf8 f.requestedBy →
          task = f.payload (jsonWiring lib verifier backend foldRune)) := by
  intro before i k task result after hlog
  subst hlog
  obtain ⟨done, a, rest, w₁, w₂, rfl, hdone, hstep, _⟩ := Step.exec_event (step_single _) hexec
  obtain ⟨f, hf, rfl⟩ := holding_task (foldersOnly_json lib verifier backend foldRune) hdone
    (step_processed hstep).1
  refine ⟨f, hf, rfl, fun hparent hname hby => ?_⟩
  rw [Folder.task, hparent, hname, hby]
  rfl

/-- The name has a quote, a character beyond ASCII, and a byte that is not valid. -/
theorem processed_as_asked_odd :
    let d := jsonWiring sampleLib Server.demo.verifier Tasks.quietStorage id
    ∃ w log f i k result, (step d).exec (folderRun (str "/a") (str "\"é" ++ [255]))
        (World.init () demoACL) = some (w, log) ∧
      f ∈ accepted d log ∧ .task (.processed i k f.task result) ∈ log := by
  intro d
  have hrun : (((step d).exec (folderRun (str "/a") (str "\"é" ++ [255]))
      (World.init () demoACL)).map fun out => out.2.any Event.isProcessed) = some true := by
    decide +kernel
  obtain ⟨⟨w, log⟩, hexec, hany⟩ := Option.map_eq_some_iff.mp hrun
  obtain ⟨before, i, k, task, result, after, hlog⟩ := isProcessed_split hany
  obtain ⟨f, hf, rfl, _⟩ := processed_as_asked sampleLib Server.demo.verifier
    Tasks.quietStorage id () demoACL _ w log hexec _ _ _ _ _ _ hlog
  refine ⟨w, log, f, i, k, result, hexec, ?_, ?_⟩
  · rw [show log = _ from hlog, accepted_append]
    exact List.mem_append_left _ (List.mem_of_getElem? hf)
  · rw [show log = _ from hlog]
    simp

end FileEngine.Deployment
