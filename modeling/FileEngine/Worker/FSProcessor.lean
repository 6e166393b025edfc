import FileEngine.Fs.Jail
import FileEngine.Tasks.Folders

/-!
# Where tasks put things

`internal/worker/worker_impl.go`: the processor of the worker over its own file system. It is
compared with the processor of `internal/app/tasks` over the local backend: both join the name
of a folder or of a file to the path of its parent as it is.

A name leads strictly beneath the parent exactly if it comes down again through the names that
it climbs over, and goes on from there (`tasks_stay_iff`). How far it can climb depends on the
processor: the local backend stops at its base, and so does the worker for an absolute path,
but with a relative one it stops only at the root of the file system.
-/

namespace FileEngine.Worker

open Go Os Local Fs

structure Task where
  type : Str
  params : Str → Option Str

/-- `task.Params[key]`: a missing key reads as the empty string. -/
def Task.param (t : Task) (key : Str) : Str := (t.params key).getD []

structure FSProcessor where
  fs : LocalFs

def FSProcessor.process (p : FSProcessor) (task : Task) : OsM Unit :=
  if task.type = str "create_folder" then
    let path := task.param (str "path")
    let folder := task.param (str "folder")
    if path = [] ∨ folder = [] then throw (.other (str "missing params"))
    else p.fs.createFolder [path, folder]
  else if task.type = str "complete_upload" then
    let uploadTmp := task.param (str "upload_tmp")
    let targetPath := task.param (str "target_path")
    let filename := task.param (str "filename")
    if uploadTmp = [] ∨ targetPath = [] ∨ filename = [] then
      throw (.other (str "missing params for complete_upload"))
    else p.fs.moveUploadedFile [uploadTmp] [targetPath, filename]
  else throw (.other (str "unknown task type: " ++ task.type))

/-! ## Names beneath a parent -/

/-- Where the names of a path begin that a name behind it can climb over. -/
def climbable (b : Loc) (path : Str) : Loc := if isAbs path then locate path else b.follow path

theorem dest_single (l : LocalFs) (path : Str) :
    l.dest [path] = (locate l.baseRoot).reroot path :=
  reroot_join _ path

theorem dest_pair (l : LocalFs) {path : Str} (hpath : path ≠ []) (name : Str) :
    l.dest [path, name] = if isAbs path then locate l.baseRoot ++ (locate path).follow name
      else ((locate l.baseRoot).follow path).follow name := by
  have hjoin : join [path, name] = clean (path ++ slash :: name) := by
    simp [join, hpath, List.intercalate_cons_cons]
  have habs : isAbs (path ++ slash :: name) = isAbs path := by
    obtain ⟨c, t, rfl⟩ := List.exists_cons_of_ne_nil hpath
    rw [List.cons_append, isAbs_cons, isAbs_cons]
  rw [LocalFs.dest, hjoin, Loc.reroot, isAbs_clean, habs]
  by_cases h : isAbs path = true
  · rw [if_pos h, if_pos h, locate_clean, locate_append_follow]
  · rw [if_neg h, if_neg h, follow_clean (habs.trans (Bool.eq_false_iff.mpr h)),
      follow_append_slash]

theorem dest_beneath_iff (l : LocalFs) {path : Str} (hpath : path ≠ []) (name : Str) :
    (l.dest [path]).Beneath (l.dest [path, name]) ↔
      (climbable (locate l.baseRoot) path).Descends name := by
  rw [dest_single, dest_pair l hpath, Loc.reroot, climbable, ← beneath_follow_iff]
  by_cases h : isAbs path = true
  · rw [if_pos h, if_pos h, if_pos h, append_beneath_iff]
  · rw [if_neg h, if_neg h, if_neg h]

theorem locate_folder (parent name : Str) :
    locate (trimSuffix parent [slash] ++ [slash] ++ name) = (locate parent).follow name := by
  have htrim : locate (trimSuffix parent [slash]) = locate parent := by
    unfold trimSuffix
    split
    · rename_i h
      obtain ⟨p, rfl⟩ := List.isSuffixOf_iff_suffix.mp h
      simp [locate_append_slash]
    · rfl
  rw [List.append_assoc, List.singleton_append, locate_append_follow, htrim]

/-! ## What is put where -/

/-- The place where an effect puts a file. -/
def filePlace : Effect → Option Loc
  | .created k false | .written k | .renamed _ k => some k
  | .created _ true | .removed _ => none

/-- The effect puts no file anywhere but at `k`. -/
def OnlyAt (k : Loc) (e : Effect) : Prop := ∀ l ∈ filePlace e, l = k

section

variable {l : LocalFs} {t : FS}

theorem createFolder_makes (habs : isAbs l.baseRoot = true) (parts : List Str) :
    Prog.Wp AnyEffect (fun (r : Except Errno Unit) (t' : FS) =>
      r = .ok () → t'.node (l.dest parts) = some .dir) (l.createFolder parts).run t := by
  refine LocalFs.wp_resolveParts habs (fun e he => nomatch he) fun p hok _ => ?_
  obtain ⟨rfl, -⟩ := (LocalFs.sanitizeAndJoin_iff habs).mp hok
  apply Prog.wp_call
  intro choice r t' effects hexec
  refine ⟨fun _ _ => trivial, fun hr => ?_⟩
  have hspec := mkdirs_spec t choice.fault [] (locate (l.dest parts).path) t.root
  have hrun : t.mkdirs choice.fault [] (locate (l.dest parts).path) = (r, t', effects) := hexec
  rw [hrun, hr, List.nil_append, locate_path] at hspec
  rcases hspec with ⟨_, e, he⟩ | ⟨_, _, hdir⟩
  · cases he
  · exact hdir

/-- An open file that stands at `k` is written there only. -/
theorem written_onlyAt {k : Loc} {i : Nat} (h : t.node k = some (.file i)) :
    ∀ e ∈ (t.places i).map Effect.written, OnlyAt k e := by
  intro e he
  obtain ⟨l', hl', rfl⟩ := List.mem_map.mp he
  rintro _ ⟨⟩
  exact t.single _ _ i (FS.mem_places.mp hl') h

theorem wp_mkdirAll_onlyAt {k : Loc} {path : Str} {Q : Except Errno Unit → FS → Prop}
    (hQ : ∀ r t', Q r t') : Prog.Wp (OnlyAt k) Q (mkdirAll path).run t := by
  refine fun choice => ⟨fun e he => ?_, hQ _ _⟩
  obtain ⟨l', rfl, _⟩ := mkdirs_effects t choice.fault [] (locate path) e he
  rintro _ ⟨⟩

theorem wp_create_onlyAt {k : Loc} {Q : Except Errno Handle → FS → Prop}
    (herr : ∀ e, Q (.error e) t)
    (hok : ∀ i t', t'.node k = some (.file i) → Q (.ok ⟨.file i, k.path⟩) t') :
    Prog.Wp (OnlyAt k) Q (create k.path).run t := by
  apply Prog.wp_call
  intro choice r t' effects hexec
  rcases t.create_cases choice k.path with ⟨e, heq⟩ | ⟨i, hi, heq⟩ | ⟨hv, heq⟩
  · cases heq.symm.trans hexec
    exact ⟨by simp, herr e⟩
  · cases heq.symm.trans hexec
    rw [locate_path] at hi
    exact ⟨written_onlyAt hi, hok i _ hi⟩
  · cases heq.symm.trans hexec
    refine ⟨by simp [OnlyAt, filePlace, locate_path], hok _ _ ?_⟩
    simp [FS.insert, locate_path]

theorem wp_copyFile_onlyAt {k : Loc} {i : Nat} {name : Str} {src : Handle}
    {Q : Except Errno Unit → FS → Prop} (hi : t.node k = some (.file i))
    (hQ : ∀ r t', t'.node k = some (.file i) → Q r t') :
    Prog.Wp (OnlyAt k) Q (copyFile ⟨.file i, name⟩ src).run t := by
  apply Prog.wp_call
  intro choice r t' effects hexec
  rcases t.copyFile_cases choice ⟨.file i, name⟩ src with ⟨e, heq⟩ | ⟨j, r', content, hj, heq⟩
  · cases heq.symm.trans hexec
    exact ⟨by simp, hQ _ _ hi⟩
  · cases hj
    cases heq.symm.trans hexec
    exact ⟨written_onlyAt hi, hQ _ _ hi⟩

theorem wp_rename_onlyAt {k : Loc} {src : Str} {Q : Except Errno Unit → FS → Prop}
    (herr : ∀ e, Q (.error e) t) (hok : ∀ t', t'.node k ≠ none → Q (.ok ()) t') :
    Prog.Wp (OnlyAt k) Q (rename src k.path).run t := by
  have honly : ∀ e ∈ [Effect.renamed (locate src) (locate k.path)], OnlyAt k e := by
    simp [OnlyAt, filePlace, locate_path]
  apply Prog.wp_call
  intro choice r t' effects hexec
  rcases t.renamePath_cases choice src k.path with ⟨e, heq⟩ | ⟨hsame, heq⟩ | ⟨hm, _, heq⟩
  · cases heq.symm.trans hexec
    exact ⟨by simp, herr e⟩
  · have hthere := renamePath_ok heq
    cases heq.symm.trans hexec
    rw [hsame, locate_path] at hthere
    exact ⟨honly, hok _ hthere⟩
  · have hthere := renamePath_ok heq
    cases heq.symm.trans hexec
    refine ⟨honly, hok _ ?_⟩
    have hmoved := t.movedNode_beneath (locate src) (locate k.path) []
    rw [List.append_nil, List.append_nil, locate_path] at hmoved
    show t.movedNode (locate src) (locate k.path) k ≠ none
    rw [locate_path, hmoved]
    exact hthere

theorem wp_openFile_onlyAt {k : Loc} {path : Str} {Q : Except Errno Handle → FS → Prop}
    (hQ : ∀ r, Q r t) : Prog.Wp (OnlyAt k) Q (openFile path).run t := by
  apply Prog.wp_call
  intro choice r t' effects hexec
  rcases t.openFile_cases choice path with ⟨e, heq⟩ | ⟨n, _, heq⟩
  · cases heq.symm.trans hexec
    exact ⟨by simp, hQ _⟩
  · cases heq.symm.trans hexec
    exact ⟨by simp, hQ _⟩

theorem wp_remove_onlyAt {k : Loc} {path : Str} {Q : Except Errno Unit → FS → Prop}
    (hQ : ∀ r t', (locate path ≠ k → t'.node k = t.node k) → Q r t') :
    Prog.Wp (OnlyAt k) Q (remove path).run t := by
  apply Prog.wp_call
  intro choice r t' effects hexec
  rcases t.remove_cases choice path with ⟨e, heq⟩ | ⟨hp, heq⟩
  · cases heq.symm.trans hexec
    exact ⟨by simp, hQ _ _ fun _ => rfl⟩
  · cases heq.symm.trans hexec
    refine ⟨by simp [OnlyAt, filePlace], hQ _ _ fun hne => ?_⟩
    exact if_neg (by simpa using Ne.symm hne)

theorem moveUploadedFile_puts (habs : isAbs l.baseRoot = true) (src dst : List Str) :
    Prog.Wp (OnlyAt (l.dest dst)) (fun (r : Except Errno Unit) (t' : FS) =>
      r = .ok () → l.dest src ≠ l.dest dst → t'.node (l.dest dst) ≠ none)
      (l.moveUploadedFile src dst).run t := by
  refine LocalFs.wp_resolveParts habs (fun e he => nomatch he) fun srcF hsrc _ => ?_
  refine LocalFs.wp_resolveParts habs (fun e he => nomatch he) fun dstF hdst _ => ?_
  obtain ⟨rfl, -⟩ := (LocalFs.sanitizeAndJoin_iff habs).mp hsrc
  obtain ⟨rfl, -⟩ := (LocalFs.sanitizeAndJoin_iff habs).mp hdst
  refine Prog.wp_bindE (wp_mkdirAll_onlyAt fun made t₁ => ?_)
  cases made with
  | error e => exact fun he => nomatch he
  | ok _ =>
    refine Prog.wp_bindE (Prog.wp_attempt (wp_rename_onlyAt (fun e => ?_) fun t₂ hthere => ?_))
    · refine Prog.wp_bindE (wp_openFile_onlyAt fun opened => ?_)
      cases opened with
      | error e => exact fun he => nomatch he
      | ok input =>
        refine Prog.wp_bindE (wp_create_onlyAt (fun e he => nomatch he) fun i t₃ hi => ?_)
        refine Prog.wp_bindE (Prog.wp_attempt (wp_copyFile_onlyAt hi fun copied t₄ hi₄ => ?_))
        cases copied with
        | error e =>
          exact Prog.wp_bindE (wp_closeFile (Prog.wp_bindE (wp_closeFile fun he => nomatch he)))
        | ok _ =>
          refine Prog.wp_bindE (Prog.wp_attempt (wp_remove_onlyAt fun removed t₅ hkeep => ?_))
          refine Prog.wp_bindE (wp_closeFile (Prog.wp_bindE (wp_closeFile ?_)))
          cases removed with
          | error e => exact fun he => nomatch he
          | ok _ =>
            intro _ hne
            rw [locate_path] at hkeep
            rw [hkeep hne, hi₄]
            exact Option.some_ne_none _
    · exact fun _ _ => hthere

end

/-! ## The processors -/

/-- An operation of the local backend against the choices of the environment. -/
def against (host : Host) (choices : Nat → Choice) {α : Type} (p : OsM α) : Op FS α := fun t =>
  let ran := Prog.run p.run choices t
  (ran.value.mapError host.message, ran.state)

/-- The local backend on a host on which calls may fail. -/
def facing (s : LocalStorage) (host : Host) (choices : Nat → Choice) : Storage FS where
  createFolder path := against host choices (s.createFolder path)
  atomicWrite path r := against host choices (s.atomicWrite path r)
  move src dst := against host choices (s.move src dst)
  delete path := against host choices (s.delete path)
  exists_ path t := ((s.exists_ (choices 0) path t).mapError host.message, t)
  list listPrefix t :=
    ((s.list host.dirSize (choices 0) (fun _ => false) listPrefix t).mapError host.message, t)
  open_ path t := (((s.open_ (choices 0) path t).map host.reader).mapError host.message, t)

/-- A folder task that succeeds leaves its directory. -/
theorem process_makes (s : LocalStorage) (host : Host) (choices : Nat → Choice) {t : FS}
    {task : Queue.TaskPayload} (htype : task.type = str "create_folder")
    (hok : (Tasks.process (facing s host choices) task t).1 = .ok ()) :
    (Tasks.process (facing s host choices) task t).2.node (locate (s.full (Tasks.folderOf task))) =
      some .dir := by
  have hprocess : Tasks.process (facing s host choices) task t =
      if Tasks.param task (str "parent") = [] ∨ Tasks.param task (str "name") = [] then
        (.error (str "missing params"), t)
      else against host choices (s.createFolder (Tasks.folderOf task)) t := by
    simp only [Tasks.process, htype, if_true]
    rfl
  rw [hprocess] at hok ⊢
  split at hok
  · cases hok
  · rename_i hparams
    rw [if_neg hparams]
    have hspec := mkdirs_spec t (choices 0).fault [] (locate (s.full (Tasks.folderOf task))) t.root
    rcases hspec with ⟨_, e, he⟩ | ⟨_, _, hdir⟩
    · have hvalue : (against host choices (s.createFolder (Tasks.folderOf task)) t).1 =
          .error (host.message e) := congrArg (Except.mapError host.message) he
      rw [hvalue] at hok
      cases hok
    · exact hdir

/-- The worker has its parameters if it succeeds. -/
theorem fsProcess_folder {p : FSProcessor} {task : Task} (htype : task.type = str "create_folder")
    {choices : Nat → Choice} {t : FS}
    (hok : (Prog.run (p.process task).run choices t).value = .ok ()) :
    task.param (str "path") ≠ [] ∧
      p.process task = p.fs.createFolder [task.param (str "path"), task.param (str "folder")] := by
  by_cases hparams : task.param (str "path") = [] ∨ task.param (str "folder") = []
  · have hprocess : p.process task = throw (.other (str "missing params")) := by
      simp [FSProcessor.process, htype, hparams]
    rw [hprocess] at hok
    cases hok
  · refine ⟨(not_or.mp hparams).1, ?_⟩
    simp [FSProcessor.process, htype, hparams]

theorem fsProcess_upload {p : FSProcessor} {task : Task} (htype : task.type = str "complete_upload")
    {choices : Nat → Choice} {t : FS}
    (hok : (Prog.run (p.process task).run choices t).value = .ok ()) :
    task.param (str "target_path") ≠ [] ∧
      p.process task = p.fs.moveUploadedFile [task.param (str "upload_tmp")]
        [task.param (str "target_path"), task.param (str "filename")] := by
  have hother : ¬ str "complete_upload" = str "create_folder" := by decide
  by_cases hparams : task.param (str "upload_tmp") = [] ∨ task.param (str "target_path") = [] ∨
      task.param (str "filename") = []
  · have hprocess : p.process task = throw (.other (str "missing params for complete_upload")) := by
      simp [FSProcessor.process, htype, hparams, hother]
    rw [hprocess] at hok
    cases hok
  · refine ⟨(not_or.mp (not_or.mp hparams).2).1, ?_⟩
    simp [FSProcessor.process, htype, hparams, hother]

/-- **Where tasks put things.** A task that succeeds has made its folder, or put its file, at
the location of the name behind the path of the parent. It is strictly beneath the location
of the parent exactly if the name comes down through the names that it climbs over, and goes
on from there. -/
theorem tasks_stay_iff (s : LocalStorage) (host : Host) (l : LocalFs)
    (habs : isAbs l.baseRoot = true) (choices : Nat → Choice) (t : FS) :
    (∀ task : Queue.TaskPayload, task.type = str "create_folder" →
      (Tasks.process (facing s host choices) task t).1 = .ok () →
      let parent := Tasks.param task (str "parent")
      let folder := locate (s.full (Tasks.folderOf task))
      (Tasks.process (facing s host choices) task t).2.node folder = some .dir ∧
        ((locate (s.full parent)).Beneath folder ↔
          (locate parent).Descends (Tasks.param task (str "name")))) ∧
    (∀ task : Task, task.type = str "create_folder" →
      (Prog.run (FSProcessor.process ⟨l⟩ task).run choices t).value = .ok () →
      let path := task.param (str "path")
      let folder := locate (l.full [path, task.param (str "folder")])
      (Prog.run (FSProcessor.process ⟨l⟩ task).run choices t).state.node folder = some .dir ∧
        ((locate (l.full [path])).Beneath folder ↔
          (climbable (locate l.baseRoot) path).Descends (task.param (str "folder")))) ∧
    ∀ task : Task, task.type = str "complete_upload" →
      (Prog.run (FSProcessor.process ⟨l⟩ task).run choices t).value = .ok () →
      let path := task.param (str "target_path")
      let file := locate (l.full [path, task.param (str "filename")])
      let ran := Prog.run (FSProcessor.process ⟨l⟩ task).run choices t
      (∀ e ∈ ran.effects, OnlyAt file e) ∧
        (locate (l.full [task.param (str "upload_tmp")]) ≠ file → ran.state.node file ≠ none) ∧
        ((locate (l.full [path])).Beneath file ↔
          (climbable (locate l.baseRoot) path).Descends (task.param (str "filename"))) := by
  refine ⟨fun task htype hok => ⟨process_makes s host choices htype hok, ?_⟩,
    fun task htype hok => ?_, fun task htype hok => ?_⟩
  · rw [Local.locate_full, Local.locate_full, append_beneath_iff, Tasks.folderOf, locate_folder,
      beneath_follow_iff]
  · obtain ⟨hpath, hprocess⟩ := fsProcess_folder htype hok
    dsimp only
    rw [hprocess] at hok ⊢
    rw [LocalFs.locate_full habs, LocalFs.locate_full habs]
    have hmakes := Prog.run_of_wp (createFolder_makes (t := t) habs
      [task.param (str "path"), task.param (str "folder")]) choices
    exact ⟨hmakes.2 hok, dest_beneath_iff l hpath _⟩
  · obtain ⟨hpath, hprocess⟩ := fsProcess_upload htype hok
    dsimp only
    rw [hprocess] at hok ⊢
    rw [LocalFs.locate_full habs, LocalFs.locate_full habs, LocalFs.locate_full habs]
    have hputs := Prog.run_of_wp (moveUploadedFile_puts (t := t) habs
      [task.param (str "upload_tmp")]
      [task.param (str "target_path"), task.param (str "filename")]) choices
    exact ⟨hputs.1, hputs.2 hok, dest_beneath_iff l hpath _⟩

/-- A folder task of the worker. -/
def folderTask (path folder : Str) : Task :=
  ⟨str "create_folder", fun key => [(str "path", path), (str "folder", folder)].lookup key⟩

/-- A name that climbs over the path and comes back to it. -/
theorem tasks_stay_coming_back :
    let l : LocalFs := ⟨str "/srv"⟩
    let task := folderTask (str "/a") (str "../a/b")
    let ran := Prog.run (FSProcessor.process ⟨l⟩ task).run (fun _ => Choice.smooth []) FS.empty
    ran.value = .ok () ∧ ran.state.node (locate (str "/srv/a/b")) = some .dir ∧
      ((locate (str "/srv/a")).Beneath (locate (str "/srv/a/b")) ↔
        (climbable (locate (str "/srv")) (str "/a")).Descends (str "../a/b")) := by
  have habs : isAbs (str "/srv") = true := by decide
  have hok : (Prog.run (FSProcessor.process ⟨⟨str "/srv"⟩⟩
      (folderTask (str "/a") (str "../a/b"))).run (fun _ => Choice.smooth []) FS.empty).value =
      .ok () := by decide
  have hstay := (tasks_stay_iff ⟨str "/srv"⟩ ⟨fun _ => [], [], fun _ => 0⟩ ⟨str "/srv"⟩ habs
    (fun _ => Choice.smooth []) FS.empty).2.1 (folderTask (str "/a") (str "../a/b")) rfl hok
  have hfolder : locate (LocalFs.full ⟨str "/srv"⟩ [str "/a", str "../a/b"]) =
      locate (str "/srv/a/b") := by decide
  have hpath : locate (LocalFs.full ⟨str "/srv"⟩ [str "/a"]) = locate (str "/srv/a") := by decide
  exact ⟨hok, hfolder ▸ hstay.1, hfolder ▸ hpath ▸ hstay.2⟩

/-- A name that leads beside the path it is joined to, for both processors. -/
theorem folder_beside_parent :
    let l : LocalFs := ⟨str "/srv"⟩
    let ran := Prog.run (FSProcessor.process ⟨l⟩ (folderTask (str "/a") (str "../b"))).run
      (fun _ => Choice.smooth []) FS.empty
    let result := Tasks.process (facing ⟨str "/srv"⟩ ⟨fun _ => [], [], fun _ => 0⟩
      fun _ => Choice.smooth []) (Tasks.folderTask (str "/a") (str "../b")) FS.empty
    (ran.value = .ok () ∧ ran.state.node (locate (str "/srv/b")) = some .dir) ∧
      (result.1 = .ok () ∧ result.2.node (locate (str "/srv/b")) = some .dir) ∧
      ¬ (locate (str "/srv/a")).Beneath (locate (str "/srv/b")) := by
  decide

end FileEngine.Worker
