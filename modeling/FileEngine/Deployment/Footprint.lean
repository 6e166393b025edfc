import FileEngine.Deployment.Backends

/-!
# Nothing appears without a caller with the permission

Whatever is in the storage after a run was there at the start, or a call that was let through has
led to it: an upload, with its directories and what it may leave of a temporary file, or a folder
that was asked for. And what was there at the start is still there. Uploads that fail on the way
are included, and so are workers that stop.

`StoreStep` lists once what one step of the system can do to the storage.
-/

namespace FileEngine.Deployment

open Go Auth Authz Queue

variable {ι σ κ : Type}

/-- What one step does to the storage: nothing, or one operation of the backend. A write belongs
to an upload that was let through, a folder to one of the calls in `folders`. -/
inductive StoreStep (d : Wiring σ) (w : World ι σ) (events : List (Event ι))
    (folders : List Folder) : σ → Prop
  | same : StoreStep d w events folders w.store
  | write (env : Server.Env) (md : Option Server.MD) (path content : Str) (reply : Server.Reply) :
      Server.decision d.server w.acl (.uploadObject md path content) = some true →
      .served w.acl env (.uploadObject md path content) reply ∈ events →
      StoreStep d w events folders (d.backend.atomicWrite path (newReader content) w.store).2
  | folder (f : Folder) : f ∈ folders →
      StoreStep d w events folders (d.backend.createFolder (Tasks.folderOf f.task) w.store).2
  | list (listPrefix : Str) : StoreStep d w events folders (d.backend.list listPrefix w.store).2
  | opened (path : Str) : StoreStep d w events folders (d.backend.open_ path w.store).2

theorem storeStep_after {d : Wiring σ} (w : World ι σ) (env : Server.Env) {call : Server.Call}
    (h : Server.decision d.server w.acl call = some true) (folders : List Folder) :
    StoreStep d w [.served w.acl env call (Server.carryOut d.server env call w.server).1] folders
      (w.after d env call).store := by
  cases call with
  | createFolder md parentPath folderName requestedBy => exact .same
  | listObjects md listPrefix => exact .list listPrefix
  | uploadObject md path content => exact .write env md path content _ h (List.mem_singleton_self _)
  | downloadObject md path => exact .opened path
  | httpDownload authorization query => exact .opened (Server.getFirst query)

theorem storeStep_of_step [DecidableEq ι] {d : Wiring σ} {w w' : World ι σ} {a : Action ι}
    {events : List (Event ι)} {folders : List Folder}
    (htasks : ∀ i k task, w.worker i = .holding k task → ∃ f ∈ folders, task = f.task)
    (hstep : step d w a = some (w', events)) : StoreStep d w events folders w'.store := by
  cases a with
  | call env call =>
    by_cases hd : Server.decision d.server w.acl call = some true
    · cases (step_letThrough hd env).symm.trans hstep
      exact storeStep_after w env hd folders
    · rcases step_turnedAway hd env with hsame | ⟨reply, _, hsame⟩
      · cases hsame.symm.trans hstep
        exact .same
      · cases hsame.symm.trans hstep
        exact .same
  | acl store =>
    cases hstep
    exact .same
  | turn t =>
    obtain ⟨⟨tasks, events'⟩, hturn, heq⟩ := Option.map_eq_some_iff.mp hstep
    cases heq
    show StoreStep d w _ folders tasks.store
    cases turned_of_step hturn with
    | aside hstore _ _ =>
      rw [hstore]
      exact .same
    | completed outcome hi => exact .same
    | processed hi =>
      obtain ⟨f, hf, rfl⟩ := htasks _ _ _ hi
      show StoreStep d w _ folders (Tasks.process d.backend f.task w.store).2
      rcases process_folderTask d.backend f w.store with hprocess | hprocess
      · rw [hprocess]
        exact .same
      · rw [hprocess]
        exact .folder f hf

/-! ## What has led to an entry -/

/-- A call that was let through: an upload to a path as `byUpload` says, or one of the accepted
calls, with a folder as `byFolder` says. -/
def Caused (d : Wiring σ) (log : List (Event ι)) (byUpload byFolder : Str → Prop) : Prop :=
  (∃ acl env md path content reply, .served acl env (.uploadObject md path content) reply ∈ log ∧
    Server.decision d.server acl (.uploadObject md path content) = some true ∧ byUpload path) ∨
    ∃ f ∈ accepted d log, Server.decision d.server f.acl f.call = some true ∧
      byFolder (Tasks.folderOf f.task)

theorem Caused.mono {d : Wiring σ} {log : List (Event ι)} {byUpload byFolder : Str → Prop}
    (h : Caused d log byUpload byFolder) (events : List (Event ι)) :
    Caused d (log ++ events) byUpload byFolder := by
  rcases h with ⟨acl, env, md, path, content, reply, hmem, hcall⟩ | ⟨f, hf, hcall⟩
  · exact Or.inl ⟨acl, env, md, path, content, reply, List.mem_append_left _ hmem, hcall⟩
  · refine Or.inr ⟨f, ?_, hcall⟩
    rw [accepted_append]
    exact List.mem_append_left _ hf

theorem decision_of_accepted {d : Wiring σ} {log : List (Event ι)} {f : Folder}
    (h : f ∈ accepted d log) : Server.decision d.server f.acl f.call = some true := by
  obtain ⟨raw, hraw⟩ := Option.isSome_iff_exists.mp (List.mem_filter.mp h).2
  exact (raw_eq_some hraw).1

section

variable {d : Wiring σ} (g : Growth d.backend κ) {w w' : World ι σ} {log events : List (Event ι)}
  {k : κ}

theorem StoreStep.keeps (h : StoreStep d w events (accepted d log) w'.store) (hk : ¬ g.Loose k)
    (hthere : g.has w.store k) : g.has w'.store k := by
  generalize w'.store = store at h
  cases h with
  | same => exact hthere
  | write env md path content reply _ _ => exact g.write_keeps path content w.store k hk hthere
  | folder f _ => exact g.createFolder_keeps _ _ k hthere
  | list listPrefix => exact (g.list_same listPrefix w.store).symm ▸ hthere
  | opened path => exact (g.open_same path w.store).symm ▸ hthere

theorem StoreStep.brings (h : StoreStep d w events (accepted d log) w'.store)
    (hthere : g.has w'.store k) :
    g.has w.store k ∨
      Caused d (log ++ events) (fun path => g.WriteBrings path k)
        fun path => g.FolderBrings path k := by
  generalize w'.store = store at h hthere
  cases h with
  | same => exact Or.inl hthere
  | write env md path content reply hd hmem =>
    refine (g.write_brings path content w.store k hthere).imp_right fun hbrings => Or.inl ?_
    exact ⟨_, env, md, path, content, reply, List.mem_append_right _ hmem, hd, hbrings⟩
  | folder f hf =>
    refine (g.createFolder_brings _ _ k hthere).imp_right fun hbrings => Or.inr ⟨f, ?_, ?_⟩
    · rw [accepted_append]
      exact List.mem_append_left _ hf
    · exact ⟨decision_of_accepted hf, hbrings⟩
  | list listPrefix => exact Or.inl (g.list_same listPrefix w.store ▸ hthere)
  | opened path => exact Or.inl (g.open_same path w.store ▸ hthere)

variable [DecidableEq ι]

/-- What is there after a run, by what was there at the start and what has happened. -/
theorem growth_exec (hd : FoldersOnly d) {store : σ} {acl : ACLStore} {actions : List (Action ι)}
    (hexec : (step d).exec actions (World.init store acl) = some (w, log)) :
    (∀ k, ¬ g.Loose k → g.has store k → g.has w.store k) ∧
      ∀ k, g.has w.store k → g.has store k ∨
        Caused d log (fun path => g.WriteBrings path k) fun path => g.FolderBrings path k := by
  refine Step.exec_invariant_of_run (fun w log =>
    (∀ k, ¬ g.Loose k → g.has store k → g.has w.store k) ∧
      ∀ k, g.has w.store k → g.has store k ∨
        Caused d log (fun path => g.WriteBrings path k) fun path => g.FolderBrings path k)
    (fun done a w log w' events hdone h hstep => ?_)
    ⟨fun _ _ hthere => hthere, fun _ hthere => Or.inl hthere⟩ hexec
  have hstore : StoreStep d w events (accepted d log) w'.store := by
    refine storeStep_of_step (fun i k task hi => ?_) hstep
    obtain ⟨f, hf, htask⟩ := holding_task hd hdone hi
    exact ⟨f, List.mem_of_getElem? hf, htask⟩
  constructor
  · exact fun k hk hthere => hstore.keeps g hk (h.1 k hk hthere)
  · intro k hthere
    rcases hstore.brings g hthere with hold | hcaused
    · exact (h.2 k hold).imp_right fun hcaused => hcaused.mono events
    · exact Or.inr hcaused

end

/-- The second operation fails in its third system call. -/
def thirdCallFails (n : Nat) : Conditions Os.Choice :=
  ⟨fun k => if n = 1 then if k = 2 then ⟨some (0, .busy), [], []⟩ else .smooth (str "2")
    else .smooth (str "1"), none⟩

/-- The second operation fails when it copies its temporary object. -/
def copyFails (n : Nat) : Conditions ObjectStore.Choice :=
  ⟨fun k => if n = 1 ∧ 3 ≤ k then ⟨some (str "timeout"), [], []⟩ else .smooth [2], none⟩

section

variable [DecidableEq ι] (lib : JwtLib) (verifier : JWTVerifier) (foldRune : Nat → Nat)

open Os Local in
/-- **The tree of the local backend is accounted for.** In every run, whatever fails: no file and no
directory goes away or becomes the other; and every new one is due to a call that was let through,
as a directory on the way to an upload or to a folder, as the uploaded file, or as a temporary file
beside it. -/
theorem tree_accounted (s : LocalStorage) (message : Errno → Str) (dirSize : List Str → Int)
    (start : Exposed FS Choice) (acl : ACLStore) (actions : List (Action ι))
    (w : World ι (Exposed FS Choice)) (log : List (Event ι))
    (hexec : (step (jsonWiring lib verifier (s.exposed message dirSize) foldRune)).exec actions
      (World.init start acl) = some (w, log)) :
    let d := jsonWiring lib verifier (s.exposed message dirSize) foldRune
    ∀ l isDir, (kindAt start.state l = some isDir → kindAt w.store.state l = some isDir) ∧
      (kindAt w.store.state l = some isDir → kindAt start.state l = some isDir ∨
        Caused d log (fun path => s.WriteBrings path (l, isDir))
          fun folder => isDir = true ∧ l <+: locate (s.full folder)) := by
  intro d l isDir
  obtain ⟨hkeeps, hbrings⟩ := growth_exec (s.growth message dirSize)
    (foldersOnly_json lib verifier (s.exposed message dirSize) foldRune) hexec
  exact ⟨hkeeps (l, isDir) id, hbrings (l, isDir)⟩

open Os Local in
/-- The second upload stops after its temporary file. -/
theorem tree_accounted_litter :
    let s : LocalStorage := ⟨str "/srv"⟩
    let d := jsonWiring sampleLib Server.demo.verifier
      (s.exposed (fun _ => str "failed") fun _ => 0) id
    let start := ⟨FS.empty, thirdCallFails⟩
    let litter := locate (str "/srv/a/.tmp-2")
    ∃ w log, (step d).exec fileRun (World.init start demoACL) = some (w, log) ∧
      kindAt w.store.state litter = some false ∧
      Caused d log (fun path => s.WriteBrings path (litter, false))
        fun folder => false = true ∧ litter <+: locate (s.full folder) := by
  intro s d start litter
  have hrun : ((step d).exec fileRun (World.init start demoACL)).map (fun out =>
      kindAt out.1.store.state litter) = some (some false) := by
    decide +kernel
  obtain ⟨⟨w, log⟩, hexec, hlitter⟩ := Option.map_eq_some_iff.mp hrun
  refine ⟨w, log, hexec, hlitter, ?_⟩
  have hcaused := (tree_accounted sampleLib Server.demo.verifier id s _ _ start demoACL fileRun
    w log hexec litter false).2 hlitter
  exact hcaused.resolve_left (by decide)

open ObjectStore in
/-- **The bucket is accounted for.** In every run, whatever fails: no object goes away, unless its
key is one that a temporary object may have; and every new one is due to a call that was let
through, as the uploaded object, its temporary object or the placeholder of a folder. -/
theorem bucket_accounted (s3 : S3Storage) (gcs : GCSStorage) (start : Exposed Bucket Choice)
    (acl : ACLStore) (actions : List (Action ι)) (w : World ι (Exposed Bucket Choice))
    (log : List (Event ι)) :
    (let d := jsonWiring lib verifier (s3.exposed percentDecode) foldRune
     (step d).exec actions (World.init start acl) = some (w, log) →
      ∀ k, (¬ TempKey k → start.state.lookup k ≠ none → w.store.state.lookup k ≠ none) ∧
        (w.store.state.lookup k ≠ none → start.state.lookup k ≠ none ∨
          Caused d log (fun path => k = s3.key path ∨ ∃ choice, k = tmpOf (s3.key path) choice)
            fun folder => k = s3.key (placeholder folder))) ∧
    (let d := jsonWiring lib verifier gcs.exposed foldRune
     (step d).exec actions (World.init start acl) = some (w, log) →
      ∀ k, (¬ TempKey k → start.state.lookup k ≠ none → w.store.state.lookup k ≠ none) ∧
        (w.store.state.lookup k ≠ none → start.state.lookup k ≠ none ∨
          Caused d log (fun path => k = gcs.key path ∨ ∃ choice, k = tmpOf (gcs.key path) choice)
            fun folder => k = gcs.key (placeholder folder))) := by
  constructor
  · intro d hexec k
    obtain ⟨hkeeps, hbrings⟩ := growth_exec (d := d) s3.growth (foldersOnly_json _ _ _ _) hexec
    exact ⟨hkeeps k, hbrings k⟩
  · intro d hexec k
    obtain ⟨hkeeps, hbrings⟩ := growth_exec (d := d) gcs.growth (foldersOnly_json _ _ _ _) hexec
    exact ⟨hkeeps k, hbrings k⟩

open ObjectStore in
/-- The second upload stores its temporary object and does not come further. -/
theorem bucket_accounted_litter :
    let gcs : GCSStorage := ⟨str "bucket", []⟩
    let d := jsonWiring sampleLib Server.demo.verifier gcs.exposed id
    let start : Exposed Bucket Choice := ⟨∅, copyFails⟩
    let litter := tmpOf (str "a/f") (.smooth [2])
    ∃ w log, (step d).exec fileRun (World.init start demoACL) = some (w, log) ∧
      w.store.state.lookup litter ≠ none ∧
      Caused d log (fun path => litter = gcs.key path ∨
        ∃ choice, litter = tmpOf (gcs.key path) choice)
          fun folder => litter = gcs.key (placeholder folder) := by
  intro gcs d start litter
  have hrun : ((step d).exec fileRun (World.init start demoACL)).map (fun out =>
      (out.1.store.state.lookup litter).isSome) = some true := by
    decide +kernel
  obtain ⟨⟨w, log⟩, hexec, hlitter⟩ := Option.map_eq_some_iff.mp hrun
  have hthere : w.store.state.lookup litter ≠ none := by
    intro hnone
    rw [hnone] at hlitter
    cases hlitter
  refine ⟨w, log, hexec, hthere, ?_⟩
  have hcaused := ((bucket_accounted sampleLib Server.demo.verifier id ⟨[], []⟩ gcs start demoACL
    fileRun w log).2 hexec litter).2 hthere
  exact hcaused.resolve_left fun h => h rfl

end

end FileEngine.Deployment
