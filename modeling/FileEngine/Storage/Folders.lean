import FileEngine.Storage.ListingRefinement
import FileEngine.Storage.ObjectMoves

/-!
# Folders and subtrees

What `CreateFolder` and `Delete` do is fixed by what the other operations show
afterwards, and the backends differ in it.

* `createdFolder_exists_iff`: on the local backend a created folder exists. On the object
  backends `CreateFolder` stores a placeholder with a separator at its end, and `Exists`
  asks for the key of the path itself.
* `delete_subtree_iff`: on the local backend `Delete` removes all that is beneath the
  path. On the object backends it removes the one key, and whatever is stored beneath the
  path stays.
-/

namespace FileEngine.ObjectStore

open Go Os Local

/-! ## Created folders -/

/-- `Exists`, as both object backends do it. -/
def existsKey (key : Str) : CloudM Bool := do
  match ← Prog.attempt (get key) with
  | .error _ => return false
  | .ok _ => return true

/-- After a `CreateFolder` that succeeds, an `Exists` that meets no failure returns true. -/
def CreatedExists (create : CloudM Unit) (exists_ : CloudM Bool) (b : Bucket) : Prop :=
  ∀ choices choices', (Prog.run create.run choices b).value = .ok () → (choices' 0).fault = none →
    (Prog.run exists_.run choices' (Prog.run create.run choices b).state).value = .ok true

theorem run_existsKey {choices : Nat → Choice} (h : (choices 0).fault = none) (key : Str)
    (b : Bucket) : (Prog.run (existsKey key).run choices b).value = .ok (b.lookup key).isSome := by
  have hget : ∀ r, b.get (choices 0) key = r →
      (Prog.run (Prog.attempt (get key)).run choices b).value = .ok r := fun _ hr => congrArg _ hr
  cases hkey : b.lookup key with
  | none =>
    exact (Prog.run_bindE_ok (hget (.error (str "NoSuchKey")) (by simp [Bucket.get, h, hkey])) _).1
  | some body =>
    exact (Prog.run_bindE_ok (hget (.ok body) (by simp [Bucket.get, h, hkey])) _).1

/-- The placeholder has the key of the path exactly if the path ends with a separator, or is
empty. -/
theorem keyIn_placeholder_iff (ns path : Str) :
    keyIn ns path = keyIn ns (placeholder path) ↔ path = [] ∨ hasSuffix path [slash] = true := by
  rw [keyIn_inj]
  by_cases hlast : hasSuffix path [slash] = true
  · obtain ⟨p, rfl⟩ := hasSuffix_iff.mp hlast
    rw [placeholder, trimSuffix_append]
    exact iff_of_true rfl (Or.inr hlast)
  · rw [placeholder, trimSuffix, if_neg hlast, or_iff_left hlast]
    cases path with
    | nil => exact iff_of_true rfl rfl
    | cons c p =>
      refine iff_of_false (fun h => ?_) (List.cons_ne_nil c p)
      have hlen := congrArg List.length h
      by_cases hc : c = slash
      · simp [trimPrefix, hasPrefix, List.isPrefixOf, hc] at hlen
      · simp [trimPrefix, hasPrefix, List.isPrefixOf, Ne.symm hc] at hlen

theorem createdExists_iff (ns path : Str) (b : Bucket) :
    CreatedExists (put (keyIn ns (placeholder path)) []) (existsKey (keyIn ns path)) b ↔
      path = [] ∨ hasSuffix path [slash] = true ∨ keyIn ns path ∈ b := by
  have hafter : (keyIn ns path ∈ b.insert (keyIn ns (placeholder path)) []) ↔
      path = [] ∨ hasSuffix path [slash] = true ∨ keyIn ns path ∈ b := by
    rw [Finmap.mem_insert, keyIn_placeholder_iff, or_assoc]
  rw [← hafter, ← Finmap.lookup_isSome]
  constructor
  · intro h
    have hexists := h (fun _ => .smooth []) (fun _ => .smooth []) rfl rfl
    rw [run_existsKey rfl] at hexists
    exact Except.ok.inj hexists
  · intro h choices choices' hok hfault
    rcases b.put_cases (choices 0) (keyIn ns (placeholder path)) [] with ⟨e, _, heq⟩ | ⟨_, heq⟩
    · cases (congrArg Prod.fst heq).symm.trans hok
    · have hstate : (Prog.run (put (keyIn ns (placeholder path)) []).run choices b).state =
          b.insert (keyIn ns (placeholder path)) [] := congrArg (fun ran => ran.2.1) heq
      rw [hstate, run_existsKey hfault, h]

/-- What `MkdirAll` has made is there. -/
theorem local_createdExists (s : LocalStorage) (t : FS) (path : Str) (choices : Nat → Os.Choice)
    (choice : Os.Choice) (hok : (Prog.run (s.createFolder path).run choices t).value = .ok ())
    (hchoice : choice.fault = none) :
    s.exists_ choice path (Prog.run (s.createFolder path).run choices t).state = .ok true := by
  rcases mkdirs_spec t (choices 0).fault [] (locate (s.full path)) t.root with
    ⟨_, e, herr⟩ | ⟨_, _, hdir⟩
  · cases hok.symm.trans herr
  · have hnode : (Prog.run (s.createFolder path).run choices t).state.node (locate (s.full path)) =
        some .dir := hdir
    simp only [LocalStorage.exists_, FS.stat, hchoice, FS.look, hnode]

/-- **Created folders.** On the local backend, a folder that was created exists. On the
object backends it does exactly if the path ends with a separator or is empty, or if there
was an object at the path before. -/
theorem createdFolder_exists_iff (loc : LocalStorage) (t : FS) (s : S3Storage) (g : GCSStorage)
    (b : Bucket) (path : Str) :
    (∀ choices choice, (Prog.run (loc.createFolder path).run choices t).value = .ok () →
      choice.fault = none → loc.exists_ choice path
        (Prog.run (loc.createFolder path).run choices t).state = .ok true) ∧
    (CreatedExists (s.createFolder path) (s.exists_ path) b ↔
      path = [] ∨ hasSuffix path [slash] = true ∨ s.key path ∈ b) ∧
    (CreatedExists (g.createFolder path) (g.exists_ path) b ↔
      path = [] ∨ hasSuffix path [slash] = true ∨ g.key path ∈ b) :=
  ⟨fun choices choice => local_createdExists loc t path choices choice,
    createdExists_iff s.ns path b, createdExists_iff g.ns path b⟩

/-- `CreateFolder("/a")` and then `Exists("/a")` on an empty bucket. -/
theorem createdFolder_missing :
    let s : S3Storage := ⟨str "bucket", []⟩
    let ran := Prog.run (s.createFolder (str "/a")).run (fun _ => .smooth []) ∅
    ran.value = .ok () ∧ ran.state.lookup (str "a/") = some [] ∧
      (Prog.run (s.exists_ (str "/a")).run (fun _ => .smooth []) ran.state).value = .ok false := by
  refine ⟨rfl, by decide, by decide⟩

/-! ## Deleted subtrees -/

/-- The bucket has the files `F` and nothing else. -/
def Stores (F : Finset Loc) (ns : Str) (b : Bucket) : Prop :=
  ∀ k, k ∈ b ↔ ∃ f ∈ F, k = keyIn ns f.path

/-- After a `Delete` of `p` that succeeds, nothing at `p` or beneath it can be opened or is
listed as a file, and all other files are as they were. -/
def DeletesSubtree (ns : Str) (p : Loc) (delete : CloudM Unit) (open_ : Str → CloudM Str)
    (list : Str → CloudM (List ObjectInfo)) (b : Bucket) : Prop :=
  ∀ choices, (Prog.run delete.run choices b).value = .ok () →
    let b' := (Prog.run delete.run choices b).state
    (∀ l : Loc, p <+: l → ∀ choices', ∃ e,
      (Prog.run (open_ l.path).run choices' b').value = .error e) ∧
    (∀ listPrefix choices' out, (Prog.run (list listPrefix).run choices' b').value = .ok out →
      ∀ info ∈ out, info.isDir = false → ∀ l : Loc, p <+: l → info.path ≠ l.path) ∧
    ∀ l : Loc, ¬ p <+: l → b'.lookup (keyIn ns l.path) = b.lookup (keyIn ns l.path)

theorem keyIn_path_injective (ns : Str) {l k : Loc} (h : keyIn ns l.path = keyIn ns k.path) :
    l = k := by
  have htrim : ∀ m : Loc, trimPrefix m.path [slash] = [slash].intercalate (m.map Name.val) :=
    fun m => trimPrefix_append [slash] _
  rw [keyIn_inj, htrim, htrim] at h
  exact path_injective (congrArg (slash :: ·) h)

/-- Keys of files are shown as the paths of the files. -/
theorem shown_path {ns : Str} (f : Loc) :
    [slash] ++ trimPrefix (keyIn ns f.path) (ns ++ [slash]) = f.path := by
  rcases List.eq_nil_or_concat' f with rfl | ⟨m, n, rfl⟩
  · have hroot : keyIn ns (Loc.path []) = nsPart ns ++ [] := keyIn_slash ns []
    rw [hroot, trimPrefix_nsPart]
    split <;> rfl
  · have hpre := hasPrefix_dirPath m (hasPrefix_val n)
    rw [keyIn_path_concat, trimPrefix_nsPart, trimPrefix_slash_eq_self.mpr hpre, ite_self,
      path_concat]
    rfl

section

variable {F : Finset Loc} {ns : Str} {b : Bucket} {p : Loc}

/-- A listing shows no other files than those that are stored. -/
def ShowsStored (F : Finset Loc) (ns : Str) (list : Str → CloudM (List ObjectInfo)) : Prop :=
  ∀ b, (∀ k ∈ b, ∃ f ∈ F, k = keyIn ns f.path) → ∀ listPrefix choices out,
    (Prog.run (list listPrefix).run choices b).value = .ok out → ∀ info ∈ out, info.isDir = false →
      ∃ f ∈ F, keyIn ns f.path ∈ b ∧ info.path = f.path

theorem s3_showsStored (s : S3Storage) : ShowsStored F s.ns s.list := by
  intro b hb listPrefix choices out hout info hinfo hfile
  rw [((s3_lists s listPrefix b).perm hout).mem_iff, List.mem_filterMap] at hinfo
  obtain ⟨it, hit, hshown⟩ := hinfo
  obtain ⟨y, hy, rfl⟩ := mem_items.mp hit
  obtain ⟨f, hf, hkey⟩ := hb _ hy
  by_cases hslash : slash ∈ y
  · rw [item_folder hslash] at hshown
    rw [← Option.some.inj hshown] at hfile
    cases hfile
  · rw [item_object (Or.inr hslash), hkey] at hshown
    simp only [S3Storage.shown] at hshown
    split_ifs at hshown
    refine ⟨f, hf, hkey ▸ hy, ?_⟩
    rw [← Option.some.inj hshown]
    exact shown_path f

theorem gcs_showsStored (g : GCSStorage) : ShowsStored F g.ns g.list := by
  intro b hb listPrefix choices out hout info hinfo _
  rw [((gcs_lists g listPrefix b).perm hout).mem_iff, List.mem_filterMap] at hinfo
  obtain ⟨it, hit, hshown⟩ := hinfo
  obtain ⟨y, hy, rfl⟩ := mem_items.mp hit
  obtain ⟨f, hf, hkey⟩ := hb _ hy
  rw [item_object (Or.inl rfl), hkey] at hshown
  simp only [GCSStorage.shown] at hshown
  split_ifs at hshown with _ hns
  · refine ⟨f, hf, hkey ▸ hy, ?_⟩
    rw [← Option.some.inj hshown]
    exact shown_path f
  · refine ⟨f, hf, hkey ▸ hy, ?_⟩
    rw [← Option.some.inj hshown, not_not.mp hns]
    exact congrArg ([slash] ++ ·) (trimPrefix_append [slash] _)

theorem get_fails_iff {key : Str} :
    (∀ choices, ∃ e, (Prog.run (get key).run choices b).value = .error e) ↔
      b.lookup key = none := by
  constructor
  · intro h
    obtain ⟨e, he⟩ := h fun _ => .smooth []
    cases hkey : b.lookup key with
    | none => rfl
    | some body =>
      have hget : b.get (.smooth []) key = .ok body := by simp [Bucket.get, Choice.smooth, hkey]
      cases hget.symm.trans he
  · intro h choices
    show ∃ e, b.get (choices 0) key = .error e
    unfold Bucket.get
    cases (choices 0).fault with
    | some e => exact ⟨e, rfl⟩
    | none =>
      rw [h]
      exact ⟨_, rfl⟩

theorem delete_missing {key : Str} (h : b.lookup key = none) (choice : Choice) :
    ∃ e, b.delete choice key false = (.error e, b, []) := by
  unfold Bucket.delete
  cases choice.fault with
  | some e => exact ⟨e, rfl⟩
  | none => exact ⟨_, if_pos ⟨h, Bool.false_ne_true⟩⟩

/-- Deleting one key: that is the subtree if there is nothing beneath, and nothing is done if
it is an error that the key is missing. -/
theorem deletesSubtree_iff (hb : Stores F ns b) (missingOk : Bool)
    {list : Str → CloudM (List ObjectInfo)} (hlist : ShowsStored F ns list) :
    DeletesSubtree ns p (delete (keyIn ns p.path) missingOk) (fun path => get (keyIn ns path)) list
        b ↔ ¬ Above F p ∨ (missingOk = false ∧ p ∉ F) := by
  constructor
  · intro h
    by_contra hcon
    obtain ⟨habove, hthere⟩ := not_or.mp hcon
    obtain ⟨f, hf, hpf, hne⟩ := not_not.mp habove
    have hkey : ∀ {f}, f ∈ F → b.lookup (keyIn ns f.path) ≠ none := fun {f} hf hnone =>
      Finmap.lookup_eq_none.mp hnone ((hb _).mpr ⟨f, hf, rfl⟩)
    have hmissing : b.lookup (keyIn ns p.path) = none → missingOk = true := by
      intro hnone
      by_contra hno
      exact hthere ⟨Bool.eq_false_iff.mpr hno, fun hp => hkey hp hnone⟩
    have hran : (Prog.run (delete (keyIn ns p.path) missingOk).run (fun _ => .smooth []) b).value =
          .ok () ∧
        (Prog.run (delete (keyIn ns p.path) missingOk).run (fun _ => .smooth []) b).state =
          b.erase (keyIn ns p.path) :=
      Prog.run_of_under (under_delete (Q := fun v b' => v = .ok () ∧ b' = b.erase _) hmissing
        ⟨rfl, rfl⟩) (obeys_smooth (fun _ => rfl) _ b)
    -- the file beneath is still there
    have hopen := get_fails_iff.mp ((h _ hran.1).1 f hpf)
    rw [hran.2, Finmap.lookup_erase_ne fun hsame => hne (keyIn_path_injective ns hsame).symm]
      at hopen
    exact hkey hf hopen
  · intro h choices hok
    rcases b.delete_cases (choices 0) (keyIn ns p.path) missingOk with ⟨e, heq⟩ | heq
    · cases (congrArg Prod.fst heq).symm.trans hok
    · have hstate : (Prog.run (delete (keyIn ns p.path) missingOk).run choices b).state =
          b.erase (keyIn ns p.path) := congrArg (fun ran => ran.2.1) heq
      have hnone : ¬ Above F p := by
        refine h.resolve_right ?_
        rintro ⟨rfl, hp⟩
        have hmissing : b.lookup (keyIn ns p.path) = none := by
          refine Finmap.lookup_eq_none.mpr fun hmem => ?_
          obtain ⟨f, hf, hsame⟩ := (hb _).mp hmem
          exact hp (keyIn_path_injective ns hsame ▸ hf)
        obtain ⟨e, herr⟩ := delete_missing hmissing (choices 0)
        cases herr.symm.trans heq
      rw [hstate]
      -- what is left is not at `p` nor beneath it
      have hleft : ∀ f ∈ F, keyIn ns f.path ∈ b.erase (keyIn ns p.path) → ¬ p <+: f := by
        intro f hf hmem hpf
        refine hnone ⟨f, hf, hpf, ?_⟩
        rintro rfl
        exact (Finmap.mem_erase.mp hmem).1 rfl
      refine ⟨fun l hl => ?_, ?_, fun l hl => ?_⟩
      · refine get_fails_iff.mpr (Finmap.lookup_eq_none.mpr fun hmem => ?_)
        obtain ⟨f, hf, hsame⟩ := (hb _).mp (Finmap.mem_erase.mp hmem).2
        obtain rfl := keyIn_path_injective ns hsame
        exact hleft l hf hmem hl
      · intro listPrefix choices' out hout info hinfo hfile l hl hpath
        obtain ⟨f, hf, hmem, hshown⟩ := hlist _ (fun k hk => (hb k).mp (Finmap.mem_erase.mp hk).2)
          listPrefix choices' out hout info hinfo hfile
        obtain rfl : f = l := path_injective (hshown.symm.trans hpath)
        exact hleft f hf hmem hl
      · refine Finmap.lookup_erase_ne fun hsame => hl ?_
        rw [keyIn_path_injective ns hsame]

end

/-! ### The local backend -/

/-- The same for a tree: after a `Delete` of `p` that succeeds, nothing at `p` or beneath it
can be opened or is listed, and everything else is as it was. -/
def LocalDeletesSubtree (s : LocalStorage) (p : Loc) (t : FS) : Prop :=
  ∀ choices, (Prog.run (s.delete p.path).run choices t).value = .ok () →
    let t' := (Prog.run (s.delete p.path).run choices t).state
    (∀ l : Loc, p <+: l → ∀ choice, ∃ e, s.open_ choice l.path t' = .error e) ∧
    (∀ listPrefix dirSize choice lost out, s.list dirSize choice lost listPrefix t' = .ok out →
      ∀ info ∈ out, ∀ l : Loc, p <+: l → info.path ≠ l.path) ∧
    ∀ k, ¬ locate s.base ++ p <+: k → t'.look k = t.look k

theorem removeAll_ok {t : FS} {choice : Os.Choice} {path : Str} (hpath : path ≠ [])
    (h : (t.removeAll choice path).1 = .ok ()) :
    locate path ≠ [] ∧ (t.removeAll choice path).2.1 = t.removed (locate path) [] := by
  unfold FS.removeAll at h ⊢
  rw [if_neg hpath] at h ⊢
  cases hfault : choice.fault with
  | some fault =>
    simp only [hfault] at h
    split_ifs at h
  | none =>
    simp only [hfault] at h ⊢
    split_ifs at h ⊢ with _ _ hroot
    exact ⟨hroot, rfl⟩

theorem node_removed {t : FS} {l k : Loc} (hl : l ≠ []) :
    (l <+: k → (t.removed l []).node k = none) ∧
      (¬ l <+: k → (t.removed l []).look k = t.look k) := by
  constructor
  · intro hpre
    refine if_pos (decide_eq_true ⟨hpre, ?_, by simp⟩)
    rintro rfl
    exact hl (List.prefix_nil.mp hpre)
  · intro hno
    refine FS.look_prune fun h => hno ?_
    exact (of_decide_eq_true h.1).1

/-- What the local backend lists is there. -/
theorem local_listed {s : LocalStorage} {t : FS} {dirSize : List Str → Int} {choice : Os.Choice}
    {lost : Str → Bool} {listPrefix : Str} {out : List ObjectInfo}
    (hout : s.list dirSize choice lost listPrefix t = .ok out) {info : ObjectInfo}
    (hinfo : info ∈ out) : t.node (locate s.base ++ locate info.path) ≠ none := by
  unfold LocalStorage.list at hout
  dsimp only at hout
  cases hread : t.readDir choice (s.full listPrefix) with
  | error e =>
    rw [hread] at hout
    cases hout
  | ok names =>
    rw [hread] at hout
    cases hout
    obtain ⟨c, hc, rfl⟩ := List.mem_map.mp hinfo
    rw [FS.readDir_ok hread] at hc
    obtain ⟨n, rfl, hn⟩ := FS.mem_names.mp hc
    rw [locate_full] at hn
    rwa [locate_join_name, ← List.append_assoc]

theorem local_deletesSubtree (s : LocalStorage) (p : Loc) (t : FS) :
    LocalDeletesSubtree s p t := by
  intro choices hok
  obtain ⟨hroot, hstate⟩ := removeAll_ok (full_ne_nil s p.path) hok
  rw [locate_full, locate_path] at hroot hstate
  have hafter : (Prog.run (s.delete p.path).run choices t).state =
      t.removed (locate s.base ++ p) [] := hstate
  have hgone : ∀ l, p <+: l →
      (Prog.run (s.delete p.path).run choices t).state.node (locate s.base ++ l) = none := by
    intro l hl
    rw [hafter]
    exact (node_removed hroot).1 ((List.prefix_append_right_inj _).mpr hl)
  refine ⟨fun l hl choice => ?_, ?_, fun k hk => ?_⟩
  · have hlook := FS.look_eq_none.mpr (hgone l hl)
    rw [LocalStorage.open_, FS.shown_openFile, FS.stat]
    cases choice.fault with
    | some fault => exact ⟨_, rfl⟩
    | none =>
      rw [locate_full, locate_path, hlook]
      exact ⟨_, rfl⟩
  · intro listPrefix dirSize choice lost out hout info hinfo l hl hpath
    have hthere := local_listed hout hinfo
    rw [hpath, locate_path] at hthere
    exact hthere (hgone l hl)
  · rw [hafter]
    exact (node_removed hroot).2 hk

/-- **Deleted subtrees.** On the local backend, `Delete` of a path removes the files at
and beneath it and no other ones. On S3 it does so exactly if no file is stored beneath
the path, and on GCS exactly if that is so or there is no file at the path itself, since
`Delete` then returns an error. -/
theorem delete_subtree_iff (loc : LocalStorage) (t : FS) (s : S3Storage) (g : GCSStorage)
    (F : Finset Loc) (b b' : Bucket) (hb : Stores F s.ns b) (hb' : Stores F g.ns b') (p : Loc) :
    LocalDeletesSubtree loc p t ∧
    (DeletesSubtree s.ns p (s.delete p.path) s.open_ s.list b ↔ ¬ Above F p) ∧
    (DeletesSubtree g.ns p (g.delete p.path) g.open_ g.list b' ↔ ¬ Above F p ∨ p ∉ F) := by
  refine ⟨local_deletesSubtree loc p t, ?_, ?_⟩
  · refine (deletesSubtree_iff hb true (s3_showsStored s)).trans ?_
    simp
  · refine (deletesSubtree_iff hb' false (gcs_showsStored g)).trans ?_
    simp

/-- After `Delete("/a")` the file `/a/b` can still be opened: on S3 where there is no file
`/a`, and on GCS where there is one too. -/
theorem delete_leaves_beneath :
    let s : S3Storage := ⟨str "bucket", []⟩
    let g : GCSStorage := ⟨str "bucket", []⟩
    let b : Bucket := single (str "a/b") (str "x")
    let b' : Bucket := b.insert (str "a") (str "y")
    let ran := Prog.run (s.delete (str "/a")).run (fun _ => .smooth []) b
    let ran' := Prog.run (g.delete (str "/a")).run (fun _ => .smooth []) b'
    ran.value = .ok () ∧
      (Prog.run (s.open_ (str "/a/b")).run (fun _ => .smooth []) ran.state).value = .ok (str "x") ∧
    ran'.value = .ok () ∧
      (Prog.run (g.open_ (str "/a/b")).run (fun _ => .smooth []) ran'.state).value =
        .ok (str "x") := by
  refine ⟨rfl, by decide, by decide, by decide⟩

/-- The files `/a`, `/ab` and `/b/c`. -/
def threeFiles : Finset Loc :=
  {[dirName], [siblingName], [⟨str "b", by decide⟩, ⟨str "c", by decide⟩]}

def threeFilesBucket : Bucket :=
  ((single (str "ns/a") (str "x")).insert (str "ns/ab") (str "y")).insert (str "ns/b/c") (str "z")

theorem stores_threeFiles : Stores threeFiles (str "ns") threeFilesBucket := by
  intro k
  have ha : keyIn (str "ns") (Loc.path [dirName]) = str "ns/a" := by decide
  have hab : keyIn (str "ns") (Loc.path [siblingName]) = str "ns/ab" := by decide
  have hbc : keyIn (str "ns") (Loc.path [⟨str "b", by decide⟩, ⟨str "c", by decide⟩]) =
    str "ns/b/c" := by decide
  simp only [threeFilesBucket, Finmap.mem_insert, single, Finmap.mem_singleton, threeFiles,
    Finset.mem_insert, Finset.mem_singleton, exists_eq_or_imp, exists_eq_left, ha, hab, hbc]
  tauto

/-- The file `/a` is deleted on all backends, and its sibling `/ab` is not beneath it. -/
theorem delete_subtree_sibling :
    LocalDeletesSubtree ⟨str "/srv"⟩ [dirName] twoFilesTree ∧
    DeletesSubtree (str "ns") [dirName] (S3Storage.delete ⟨str "bucket", str "ns"⟩ (str "/a"))
      (S3Storage.open_ ⟨str "bucket", str "ns"⟩) (S3Storage.list ⟨str "bucket", str "ns"⟩)
      threeFilesBucket ∧
    DeletesSubtree (str "ns") [dirName] (GCSStorage.delete ⟨str "bucket", str "ns"⟩ (str "/a"))
      (GCSStorage.open_ ⟨str "bucket", str "ns"⟩) (GCSStorage.list ⟨str "bucket", str "ns"⟩)
      threeFilesBucket := by
  have hnone : ¬ Above threeFiles [dirName] := by
    rintro ⟨f, hf, hpre, hne⟩
    simp only [threeFiles, Finset.mem_insert, Finset.mem_singleton] at hf
    rcases hf with rfl | rfl | rfl
    · exact hne rfl
    · exact absurd hpre (by decide)
    · exact absurd hpre (by decide)
  obtain ⟨hlocal, hs3, hgcs⟩ := delete_subtree_iff ⟨str "/srv"⟩ twoFilesTree
    ⟨str "bucket", str "ns"⟩ ⟨str "bucket", str "ns"⟩ threeFiles _ _ stores_threeFiles
    stores_threeFiles [dirName]
  exact ⟨hlocal, hs3.mpr hnone, hgcs.mpr (Or.inl hnone)⟩

end FileEngine.ObjectStore
