import FileEngine.Deployment.Backends

/-!
# Listings show what was uploaded

On the local backend a listing of a directory names each file in it by a path that leads back to
the file, and the files are those that were there at the start or were uploaded since, with the
length of the last upload as their size. The exception are temporary files, which a failed upload
may leave behind. A file that is lost between the reading of the directory and the question for
its size is shown with the size 0.
-/

namespace FileEngine.Deployment

open Go Auth Authz Queue Os Local

/-- The items of a listing, if at every location one finds what `found` says. -/
structure Shows (s : LocalStorage) (found : Loc → Option Str) (listPrefix : Str)
    (items : List ObjectInfo) : Prop where
  names : ∀ item ∈ items, ∃ n : Name, item.path = join [listPrefix, n.val] ∧
    locate (s.full item.path) = locate (s.full listPrefix) ++ [n]
  files : ∀ item ∈ items, item.isDir = false → ¬ TempName (locate (s.full item.path)) →
    ∃ content, found (locate (s.full item.path)) = some content ∧
      (item.size = content.length ∨ item.size = 0)
  all : ∀ (n : Name) (content : Str), ¬ TempName (locate (s.full listPrefix) ++ [n]) →
    found (locate (s.full listPrefix) ++ [n]) = some content →
    ∃ item ∈ items, item.path = join [listPrefix, n.val] ∧ item.isDir = false

section

variable {s : LocalStorage} {dirSize : List Str → Int} {choice : Choice} {lost : Str → Bool}
  {listPrefix : Str} {t : FS} {items : List ObjectInfo}

/-- The item that is shown for an entry of the directory. -/
def itemOf (dirSize : List Str → Int) (s : LocalStorage) (lost : Str → Bool) (listPrefix : Str)
    (t : FS) (name : Str) : ObjectInfo :=
  let l := locate (FS.joinPath (s.full listPrefix) name)
  let size : Int := match t.look l with
    | none => 0
    | some .dir => dirSize (t.names l)
    | some (.file content) => content.length
  ⟨join [listPrefix, name], if lost name then 0 else size, t.look l = some .dir⟩

theorem list_eq (h : s.list dirSize choice lost listPrefix t = .ok items) :
    items = (t.names (locate (s.full listPrefix))).map (itemOf dirSize s lost listPrefix t) := by
  unfold LocalStorage.list FS.readDir at h
  dsimp only at h
  split at h
  · cases h
  · rename_i names hread
    split at hread <;> cases hread
    exact (Except.ok.inj h).symm

theorem itemOf_isDir (n : Name) :
    (itemOf dirSize s lost listPrefix t n.val).isDir =
      decide (t.look (locate (s.full listPrefix) ++ [n]) = some .dir) := by
  simp only [itemOf, FS.locate_joinPath]

/-- What is shown of a file. -/
theorem itemOf_file {n : Name} {content : Str}
    (h : t.look (locate (s.full listPrefix) ++ [n]) = some (.file content)) :
    (itemOf dirSize s lost listPrefix t n.val).isDir = false ∧
      ((itemOf dirSize s lost listPrefix t n.val).size = content.length ∨
        (itemOf dirSize s lost listPrefix t n.val).size = 0) := by
  constructor
  · simp [itemOf_isDir, h]
  · simp only [itemOf, FS.locate_joinPath, h]
    split
    · exact Or.inr rfl
    · exact Or.inl rfl

/-- A listing shows the files of the tree. -/
theorem shows_fileAt (hbase : isAbs s.base = true)
    (h : s.list dirSize choice lost listPrefix t = .ok items) :
    Shows s (fileAt t) listPrefix items := by
  have hloc : ∀ n : Name, locate (s.full (join [listPrefix, n.val])) =
      locate (s.full listPrefix) ++ [n] := by
    intro n
    rw [full_join hbase, locate_join_name]
  have hmem : ∀ item ∈ items, ∃ n : Name, t.node (locate (s.full listPrefix) ++ [n]) ≠ none ∧
      item = itemOf dirSize s lost listPrefix t n.val := by
    intro item hitem
    rw [list_eq h] at hitem
    obtain ⟨name, hname, rfl⟩ := List.mem_map.mp hitem
    obtain ⟨n, rfl, hnode⟩ := FS.mem_names.mp hname
    exact ⟨n, hnode, rfl⟩
  refine ⟨fun item hitem => ?_, fun item hitem hfile _ => ?_, fun n content _ hfound => ?_⟩
  · obtain ⟨n, _, rfl⟩ := hmem item hitem
    exact ⟨n, rfl, hloc n⟩
  · obtain ⟨n, hnode, rfl⟩ := hmem item hitem
    rw [itemOf_isDir, decide_eq_false_iff_not] at hfile
    have hpath : (itemOf dirSize s lost listPrefix t n.val).path = join [listPrefix, n.val] := rfl
    rw [hpath, hloc]
    cases hlook : t.look (locate (s.full listPrefix) ++ [n]) with
    | none => exact absurd (FS.look_eq_none.mp hlook) hnode
    | some entry =>
      cases entry with
      | dir => exact absurd hlook hfile
      | file content => exact ⟨content, fileAt_file hlook, (itemOf_file hlook).2⟩
  · have hlook : t.look (locate (s.full listPrefix) ++ [n]) = some (.file content) := by
      unfold fileAt at hfound
      split at hfound
      · rename_i content' hcontent
        rw [hcontent, Option.some.inj hfound]
      · cases hfound
    refine ⟨itemOf dirSize s lost listPrefix t n.val, ?_, rfl, (itemOf_file hlook).1⟩
    rw [list_eq h]
    refine List.mem_map_of_mem (FS.mem_names.mpr ⟨n, rfl, fun hnone => ?_⟩)
    rw [FS.look_eq_none.mpr hnone] at hlook
    cases hlook

/-- Only what is found away from temporary names matters. -/
theorem Shows.congr {found found' : Loc → Option Str} (h : Shows s found listPrefix items)
    (hsame : ∀ l, ¬ TempName l → found l = found' l) : Shows s found' listPrefix items where
  names := h.names
  files item hitem hfile htemp := hsame _ htemp ▸ h.files item hitem hfile htemp
  all n content htemp hfound := h.all n content htemp ((hsame _ htemp).trans hfound)

end

variable {ι : Type} [DecidableEq ι]

/-- A listing in a log is of the storage that the run up to it has led to. -/
theorem listed_exec {σ : Type} {d : Wiring σ} {start : σ} {acl : ACLStore}
    {actions : List (Action ι)} {w : World ι σ} {before after : List (Event ι)} {acl' : ACLStore}
    {env : Server.Env} {md : Option Server.MD} {listPrefix : Str} {items : List ObjectInfo}
    (hexec : (step d).exec actions (World.init start acl) = some (w, before ++
      .served acl' env (.listObjects md listPrefix) (.unary (.ok (.listObjects items))) :: after)) :
    ∃ done w₁, (step d).exec done (World.init start acl) = some (w₁, before) ∧
      (d.backend.list listPrefix w₁.store).1 = .ok items := by
  obtain ⟨done, a, rest, w₁, w₂, rfl, hdone, hstep, _⟩ := Step.exec_event (step_single _) hexec
  refine ⟨done, w₁, hdone, ?_⟩
  rcases step_served hstep with ⟨e, herror⟩ | ⟨_, _, hreply⟩
  · cases herror
  · have hlist : Server.replyWith .listObjects (d.backend.list listPrefix w₁.store).1 =
      .unary (.ok (.listObjects items)) := hreply.symm
    cases hresult : (d.backend.list listPrefix w₁.store).1 with
    | error e =>
      rw [hresult] at hlist
      cases hlist
    | ok found =>
      rw [hresult] at hlist
      cases hlist
      rfl

variable (lib : JwtLib) (verifier : JWTVerifier) (foldRune : Nat → Nat)

/-- **Listings show what was uploaded**, in every run on the local backend with an absolute base,
whatever fails. -/
theorem local_listings (s : LocalStorage) (hbase : isAbs s.base = true) (message : Errno → Str)
    (dirSize : List Str → Int) (start : Exposed FS Choice) (acl : ACLStore)
    (actions : List (Action ι)) (w : World ι (Exposed FS Choice)) (log : List (Event ι))
    (hexec : (step (jsonWiring lib verifier (s.exposed message dirSize) foldRune)).exec actions
      (World.init start acl) = some (w, log)) :
    ∀ before acl' env md listPrefix items after,
      log = before ++ .served acl' env (.listObjects md listPrefix)
        (.unary (.ok (.listObjects items))) :: after →
      Shows s (lastUploaded (fun path => locate (s.full path)) (fileAt start.state) before)
        listPrefix items := by
  rintro before acl' env md listPrefix items after rfl
  obtain ⟨done, w₁, hdone, hlist⟩ := listed_exec hexec
  exact (shows_fileAt hbase (mapError_ok.mp hlist)).congr fun l hl =>
    kept_lastUploaded (s.contents message dirSize)
      (foldersOnly_json lib verifier (s.exposed message dirSize) foldRune) hdone hl

/-! ## A small run -/

/-- The items of a listing. -/
def Event.items : Event ι → Option (List ObjectInfo)
  | .served _ _ (.listObjects _ _) (.unary (.ok (.listObjects items))) => some items
  | _ => none

omit [DecidableEq ι] in
theorem items_split {log : List (Event ι)} {items : List ObjectInfo}
    (h : items ∈ log.filterMap Event.items) :
    ∃ before acl env md listPrefix after, log = before ++
      .served acl env (.listObjects md listPrefix)
        (.unary (.ok (.listObjects items))) :: after := by
  obtain ⟨e, he, hitems⟩ := List.mem_filterMap.mp h
  obtain ⟨before, after, rfl⟩ := List.append_of_mem he
  unfold Event.items at hitems
  split at hitems
  · cases hitems
    exact ⟨before, _, _, _, _, after, rfl⟩
  · cases hitems

/-- An upload by the user `7`, and a listing of the directory. -/
def listRun : List (Action Unit) :=
  [.call Server.demoEnv (.uploadObject (some Server.bearerMD) (str "/a/f") (str "one")),
    .call Server.demoEnv (.listObjects (some Server.bearerMD) (str "/a"))]

theorem local_listings_run :
    let s : LocalStorage := ⟨str "/srv"⟩
    let d := jsonWiring sampleLib Server.demo.verifier
      (s.exposed (fun _ => str "failed") fun _ => 0) id
    let start : Exposed FS Choice := ⟨FS.empty, fun _ => ⟨fun _ => .smooth [], none⟩⟩
    ∃ w log before listPrefix items, (step d).exec listRun (World.init start demoACL) =
        some (w, log) ∧ items ∈ log.filterMap Event.items ∧
      items.map ObjectInfo.path = [str "/a/f"] ∧
      Shows s (lastUploaded (fun path => locate (s.full path)) (fileAt FS.empty)
        (before : List (Event Unit))) listPrefix items := by
  intro s d start
  have hrun : ((step d).exec listRun (World.init start demoACL)).map (fun out =>
      (out.2.filterMap Event.items).map (List.map ObjectInfo.path)) = some [[str "/a/f"]] := by
    decide +kernel
  obtain ⟨⟨w, log⟩, hexec, hpaths⟩ := Option.map_eq_some_iff.mp hrun
  obtain ⟨items, hitems, hpath⟩ := List.map_eq_singleton_iff.mp hpaths
  have hmem : items ∈ log.filterMap Event.items := by
    rw [hitems]
    exact List.mem_singleton_self items
  obtain ⟨before, acl, env, md, listPrefix, after, hlog⟩ := items_split hmem
  refine ⟨w, log, before, listPrefix, items, hexec, hmem, hpath, ?_⟩
  exact local_listings sampleLib Server.demo.verifier id s (by decide) _ _ start demoACL listRun
    w log hexec before acl env md listPrefix items after hlog

end FileEngine.Deployment
