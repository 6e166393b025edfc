import FileEngine.Deployment.Progress
import FileEngine.Storage.LocalContents
import FileEngine.Storage.ObjectContents

/-!
# A folder that is reported to be there is there

The status of a task is found in Redis under its ID. In every run of the deployed system, if the
status is `success`, then a call with this ID was accepted, and its folder is in the storage at
this moment: it was made before the status was written, and nothing that the server or the
workers do takes a folder away. This holds on every backend (`success_means_folder`).
-/

namespace FileEngine.Deployment

open Go Auth Authz Queue

variable {ι σ : Type}

/-- The folders that are reported, or are about to be, were asked for and are there. -/
structure Made {d : Wiring σ} (fs : Folders d.backend) (w : World ι σ) (log : List (Event ι)) :
    Prop where
  finished : ∀ i k task, w.worker i = .finished k task (.ok ()) →
    ∃ f ∈ accepted d log, task = f.task ∧ fs.has w.store (Tasks.folderOf f.task)
  success : ∀ key, w.redis.keys key = some (str "success") →
    ∃ f ∈ accepted d log, key = taskKey f.task.id ∧ fs.has w.store (Tasks.folderOf f.task)

section

variable {d : Wiring σ} {fs : Folders d.backend} {w w' : World ι σ} {log events : List (Event ι)}

theorem accepted_mono {f : Folder} (h : f ∈ accepted d log) (events : List (Event ι)) :
    f ∈ accepted d (log ++ events) := by
  rw [accepted_append]
  exact List.mem_append_left _ h

/-- A step that reports nothing new and takes no folder away. -/
theorem Made.of_keeps (h : Made fs w log)
    (hkeeps : ∀ folder, fs.has w.store folder → fs.has w'.store folder)
    (hkeys : w'.redis.keys = w.redis.keys)
    (hfinished : ∀ i k task result, w'.worker i = .finished k task result →
      w.worker i = .finished k task result) : Made fs w' (log ++ events) := by
  constructor
  · intro i k task hi
    obtain ⟨f, hf, htask, hthere⟩ := h.finished i k task (hfinished i k task _ hi)
    exact ⟨f, accepted_mono hf _, htask, hkeeps _ hthere⟩
  · intro key hkey
    obtain ⟨f, hf, hid, hthere⟩ := h.success key (hkeys ▸ hkey)
    exact ⟨f, accepted_mono hf _, hid, hkeeps _ hthere⟩

theorem after_folders (env : Server.Env) (call : Server.Call) {folder : Str}
    (h : fs.has w.store folder) : fs.has (w.after d env call).store folder := by
  cases call with
  | createFolder md parentPath folderName requestedBy => exact h
  | listObjects md listPrefix => exact fs.list_keeps listPrefix w.store folder h
  | uploadObject md path content => exact fs.write_keeps path content w.store folder h
  | downloadObject md path => exact fs.open_keeps path w.store folder h
  | httpDownload authorization query => exact fs.open_keeps _ w.store folder h

/-- The server writes no status. -/
theorem after_keys (w : World ι σ) (env : Server.Env) (call : Server.Call) :
    (w.after d env call).redis.keys = w.redis.keys := by
  cases call with
  | createFolder md parentPath folderName requestedBy =>
    show (enqueueCreateFolder _ _ _ _ _ _ w.redis).2.keys = _
    rw [enqueueCreateFolder_state, enqueue_state]
  | _ => rfl

theorem statusOf_success {result : Except Str Unit}
    (h : Tasks.statusOf result = str "success") : result = .ok () := by
  cases result with
  | ok _ => rfl
  | error e => exact absurd (show str "failed" = str "success" from h) (by decide)

theorem made_init (fs : Folders d.backend) (store : σ) (acl : ACLStore) :
    Made fs (World.init store acl : World ι σ) [] := by
  constructor
  · intro i k task hi
    cases hi
  · intro key hkey
    cases hkey

variable [DecidableEq ι]

/-- A worker that has processed a task. -/
theorem Made.processed {i : ι} {k : Nat} {f : Folder} (h : Made fs w log)
    (hf : f ∈ accepted d log)
    (hw : w'.toWorld = Tasks.World.setWorker
      { w.toWorld with store := (Tasks.process d.backend f.task w.store).2 } i
      (.finished k f.task (Tasks.process d.backend f.task w.store).1)) :
    Made fs w' (log ++ events) := by
  have hstore : w'.store = (Tasks.process d.backend f.task w.store).2 :=
    congrArg Tasks.World.store hw
  have hworker : w'.worker = Function.update w.worker i
      (.finished k f.task (Tasks.process d.backend f.task w.store).1) :=
    congrArg Tasks.World.worker hw
  have hkeys : w'.redis.keys = w.redis.keys := congrArg (fun t => t.redis.keys) hw
  have hkeeps : ∀ folder, fs.has w.store folder → fs.has w'.store folder := by
    intro folder hthere
    rw [hstore]
    rcases process_folderTask d.backend f w.store with hprocess | hprocess
    · rw [hprocess]
      exact hthere
    · rw [hprocess]
      exact fs.createFolder_keeps _ _ _ hthere
  constructor
  · intro j n task hj
    rw [hworker] at hj
    by_cases hij : j = i
    · rw [hij, Function.update_self] at hj
      obtain ⟨-, rfl, hok⟩ := Tasks.Worker.finished.inj hj
      refine ⟨f, accepted_mono hf _, rfl, ?_⟩
      rw [hstore]
      rcases process_folderTask d.backend f w.store with hprocess | hprocess
      · rw [hprocess] at hok
        cases hok
      · rw [hprocess] at hok ⊢
        exact fs.createFolder_ok _ _ hok
    · rw [Function.update_of_ne hij] at hj
      obtain ⟨f', hf', htask, hthere⟩ := h.finished j n task hj
      exact ⟨f', accepted_mono hf' _, htask, hkeeps _ hthere⟩
  · intro key hkey
    obtain ⟨f', hf', hid, hthere⟩ := h.success key (hkeys ▸ hkey)
    exact ⟨f', accepted_mono hf' _, hid, hkeeps _ hthere⟩

/-- A worker that writes the status, or tries to. -/
theorem Made.completed {i : ι} {k : Nat} {task : TaskPayload} {result : Except Str Unit}
    (h : Made fs w log) (outcome : Outcome) (hi : w.worker i = .finished k task result)
    (hw : w'.toWorld = Tasks.World.setWorker
      { w.toWorld with
        redis := (complete outcome task.id (Tasks.statusOf result) w.redis).2 } i .ready) :
    Made fs w' (log ++ events) := by
  have hstore : w'.store = w.store := (congrArg Tasks.World.store hw :)
  have hworker : w'.worker = Function.update w.worker i .ready := congrArg Tasks.World.worker hw
  have hredis : w'.redis = (complete outcome task.id (Tasks.statusOf result) w.redis).2 :=
    congrArg Tasks.World.redis hw
  constructor
  · intro j n other hj
    rw [hworker] at hj
    by_cases hij : j = i
    · rw [hij, Function.update_self] at hj
      cases hj
    · rw [Function.update_of_ne hij] at hj
      obtain ⟨f, hf, htask, hthere⟩ := h.finished j n other hj
      exact ⟨f, accepted_mono hf _, htask, hstore.symm ▸ hthere⟩
  · intro key hkey
    rw [hredis, complete, outcome.run_state] at hkey
    rw [hstore]
    have hold : w.redis.keys key = some (str "success") →
        ∃ f ∈ accepted d (log ++ events), key = taskKey f.task.id ∧
          fs.has w.store (Tasks.folderOf f.task) := by
      intro hkey
      obtain ⟨f, hf, hid, hthere⟩ := h.success key hkey
      exact ⟨f, accepted_mono hf _, hid, hthere⟩
    split at hkey
    · by_cases hsame : key = taskKey task.id
      · subst hsame
        have hstatus : Tasks.statusOf result = str "success" := by
          simpa [Queue.set] using hkey
        obtain rfl := statusOf_success hstatus
        obtain ⟨f, hf, rfl, hthere⟩ := h.finished i k task hi
        exact ⟨f, accepted_mono hf _, rfl, hthere⟩
      · exact hold (by simpa [Queue.set, Function.update_of_ne hsame] using hkey)
    · exact hold hkey

/-- One step, if the workers hold tasks of accepted calls. -/
theorem Made.next {a : Action ι} (h : Made fs w log)
    (htasks : ∀ i k task, w.worker i = .holding k task →
      ∃ f, (accepted d log)[k]? = some f ∧ task = f.task)
    (hstep : step d w a = some (w', events)) : Made fs w' (log ++ events) := by
  cases a with
  | call env call =>
    by_cases hd : Server.decision d.server w.acl call = some true
    · cases (step_letThrough hd env).symm.trans hstep
      exact h.of_keeps (fun folder => after_folders env call) (after_keys w env call)
        fun _ _ _ _ hi => hi
    · rcases step_turnedAway hd env with hsame | ⟨reply, _, hsame⟩
      · cases hsame.symm.trans hstep
        exact h.of_keeps (fun _ hthere => hthere) rfl fun _ _ _ _ hi => hi
      · cases hsame.symm.trans hstep
        exact h.of_keeps (fun _ hthere => hthere) rfl fun _ _ _ _ hi => hi
  | acl store =>
    cases hstep
    exact h.of_keeps (fun _ hthere => hthere) rfl fun _ _ _ _ hi => hi
  | turn t =>
    obtain ⟨⟨tasks, events'⟩, hturn, heq⟩ := Option.map_eq_some_iff.mp hstep
    cases heq
    cases turned_of_step hturn with
    | aside hstore hkeys hfinished =>
      refine h.of_keeps (fun folder hthere => ?_) hkeys hfinished
      exact (show tasks.store = w.store from hstore).symm ▸ hthere
    | processed hi =>
      obtain ⟨f, hf, rfl⟩ := htasks _ _ _ hi
      exact h.processed (List.mem_of_getElem? hf) rfl
    | completed outcome hi => exact h.completed outcome hi rfl

theorem made_exec (fs : Folders d.backend) (hd : FoldersOnly d) {store : σ} {acl : ACLStore}
    {actions : List (Action ι)}
    (hexec : (step d).exec actions (World.init store acl) = some (w, log)) : Made fs w log := by
  refine Step.exec_invariant_of_run (Made fs) (fun done a w log w' events hdone h hstep => ?_)
    (made_init fs store acl) hexec
  exact h.next (fun i k task => holding_task hd hdone) hstep

end

theorem taskKey_injective {i j : Str} (h : taskKey i = taskKey j) : i = j :=
  List.append_cancel_left h

variable [DecidableEq ι]

/-- The status under an ID speaks of a call. -/
theorem success_folder {d : Wiring σ} (fs : Folders d.backend) (hd : FoldersOnly d) {store : σ}
    {acl : ACLStore} {actions : List (Action ι)} {w : World ι σ} {log : List (Event ι)}
    (hexec : (step d).exec actions (World.init store acl) = some (w, log)) {id : Str}
    (hstatus : w.redis.keys (taskKey id) = some (str "success")) :
    ∃ f ∈ accepted d log, id = formatTime f.env.now ∧
      fs.has w.store (Tasks.folderOf f.task) := by
  obtain ⟨f, hf, hid, hthere⟩ := (made_exec fs hd hexec).success _ hstatus
  exact ⟨f, hf, taskKey_injective hid, hthere⟩

open Os Local ObjectStore in
/-- **A folder that is reported to be there is there.** In every run, whatever fails: if the
status under an ID is `success`, then there is a call with this ID that was let through and has
put its task into the list, and its folder is in the storage: a directory of the local tree, or
the placeholder in the bucket. -/
theorem success_means_folder (lib : JwtLib) (verifier : JWTVerifier) (foldRune : Nat → Nat)
    (s : LocalStorage) (message : Errno → Str) (dirSize : List Str → Int) (s3 : S3Storage)
    (gcs : GCSStorage) (acl : ACLStore) (actions : List (Action ι)) (id : Str)
    (log : List (Event ι)) :
    (∀ start w, let d := jsonWiring lib verifier (s.exposed message dirSize) foldRune
      (step d).exec actions (World.init start acl) = some (w, log) →
      w.redis.keys (taskKey id) = some (str "success") →
      ∃ f ∈ accepted d log, id = formatTime f.env.now ∧
        w.store.state.look (locate (s.full (Tasks.folderOf f.task))) = some .dir) ∧
    (∀ start w, let d := jsonWiring lib verifier (s3.exposed percentDecode) foldRune
      (step d).exec actions (World.init start acl) = some (w, log) →
      w.redis.keys (taskKey id) = some (str "success") →
      ∃ f ∈ accepted d log, id = formatTime f.env.now ∧
        w.store.state.lookup (s3.key (placeholder (Tasks.folderOf f.task))) ≠ none) ∧
    ∀ start w, let d := jsonWiring lib verifier gcs.exposed foldRune
      (step d).exec actions (World.init start acl) = some (w, log) →
      w.redis.keys (taskKey id) = some (str "success") →
      ∃ f ∈ accepted d log, id = formatTime f.env.now ∧
        w.store.state.lookup (gcs.key (placeholder (Tasks.folderOf f.task))) ≠ none := by
  refine ⟨?_, ?_, ?_⟩ <;> intro start w d hexec hstatus
  · exact success_folder (d := d) (s.folders message dirSize) (foldersOnly_json _ _ _ _) hexec
      hstatus
  · exact success_folder (d := d) s3.folders (foldersOnly_json _ _ _ _) hexec hstatus
  · exact success_folder (d := d) gcs.folders (foldersOnly_json _ _ _ _) hexec hstatus

open Os Local ObjectStore in
/-- One folder on the local backend. -/
theorem success_means_folder_one :
    let s : LocalStorage := ⟨str "/srv"⟩
    let d := jsonWiring sampleLib Server.demo.verifier
      (s.exposed (fun _ => str "failed") fun _ => 0) id
    let start : Exposed FS Os.Choice := ⟨FS.empty, fun _ => ⟨fun _ => .smooth [], none⟩⟩
    ∃ w log f, (step d).exec (folderRun (str "/a") (str "b")) (World.init start demoACL) =
        some (w, log) ∧ w.redis.keys (taskKey (formatTime 0)) = some (str "success") ∧
      f ∈ accepted d log ∧
      w.store.state.look (locate (s.full (Tasks.folderOf f.task))) = some .dir := by
  intro s d start
  let f : Folder := ⟨demoACL, Server.demoEnv, some Server.bearerMD, str "/a", str "b", str "7"⟩
  have hd : FoldersOnly d := foldersOnly_json _ _ _ _
  have hdecision : Server.decision d.server demoACL f.call = some true := by decide +kernel
  have hok : (Tasks.process d.backend f.task start).1 = .ok () := by decide +kernel
  let raw := marshalPayload createFolderKeys (f.payload d)
  have hraw : f.raw d = some raw := if_pos hdecision
  let w₁ : World Unit (Exposed FS Os.Choice) := (World.init start demoACL).after d f.env f.call
  have hcall := step_letThrough (w := (World.init start demoACL : World Unit _)) hdecision f.env
  have htasks : w₁.redis.tasks = raw :: [] := rfl
  have hready : w₁.worker () = .ready := rfl
  obtain ⟨w, log, hround, hredis, _⟩ := exec_round (d := d) htasks hready
  have hexec := Step.exec_cons.mpr ⟨w₁, _, log, hcall, hround, rfl⟩
  have hstatus : w.redis.keys (taskKey (formatTime 0)) = some (str "success") := by
    have hid : formatTime 0 = f.task.id := congrArg formatTime (show 0 = f.env.now from rfl)
    have hstore : w₁.store = start := rfl
    rw [hd f raw hraw, hstore, hok] at hredis
    rw [hid, congrArg Redis.keys hredis]
    exact Function.update_self _ _ _
  obtain ⟨f', hf', _, hthere⟩ := (success_means_folder sampleLib Server.demo.verifier id s _ _
    ⟨[], []⟩ ⟨[], []⟩ demoACL (folderRun (str "/a") (str "b")) (formatTime 0) _).1 start w hexec
    hstatus
  exact ⟨w, _, f', hexec, hstatus, hf', hthere⟩

end FileEngine.Deployment
