import FileEngine.Go.Relative
import FileEngine.Os.Within
import FileEngine.Storage.Interface

/-!
# The local backend

`internal/adapters/storage/local/local_storage.go`: every operation that changes
something, as a program of system calls; `Exists`, `List` and `Open` as functions of the
tree.

`full` maps a path to the location of the cleaned path beneath the base, so no path
leaves the base. `AtomicWrite` however puts its temporary file into the directory of
the target, which is the parent of the base when the path denotes the base itself. All
other operations stay within the base, for every path and every pattern of failures
(`runCalls_within`).

`List` joins its prefix as it is to the names of the entries, and `full` cleans the result
from the root; both lead to the same place (`list_names_entries`).
-/

namespace FileEngine.Local

open Go Os

structure LocalStorage where
  base : Str

namespace LocalStorage

def full (s : LocalStorage) (p : Str) : Str :=
  let cleaned := clean ([slash] ++ p)
  join [s.base, cleaned]

/-! ## The operations -/

def createFolder (s : LocalStorage) (path : Str) : OsM Unit := mkdirAll (s.full path)

/-- The writes of `io.Copy`: one for each read that returned something. -/
def copyChunks (tmp : Handle) : (offset : Nat) → List Str → OsM Unit
  | _, [] => return
  | offset, chunk :: chunks => do
      if chunk ≠ [] then
        writeAt tmp offset chunk
      copyChunks tmp (offset + chunk.length) chunks

/-- `io.Copy` from a reader. -/
def ioCopy (tmp : Handle) (reads : Reads) : OsM Unit := do
  copyChunks tmp 0 (reads.chunks ++ [reads.last])
  match reads.err with
  | .eof => return
  | .other message => throw (.other message)

def atomicWrite (s : LocalStorage) (path : Str) (r : Reader) : OsM Unit := do
  let full := s.full path
  let parent := dir full
  mkdirAll parent
  let tmp ← createTemp parent (str ".tmp-")
  match ← Prog.attempt (ioCopy tmp (r (32 * 1024))) with
  | .error e =>
      closeFile tmp
      throw e
  | .ok _ =>
      closeFile tmp
      rename tmp.name full

def move (s : LocalStorage) (src dst : Str) : OsM Unit := do
  let srcF := s.full src
  let dstF := s.full dst
  mkdirAll (dir dstF)
  match ← Prog.attempt (rename srcF dstF) with
  | .ok _ => return
  | .error _ =>
      let input ← openFile srcF
      let out ← create dstF
      match ← Prog.attempt (copyFile out input) with
      | .error e =>
          closeFile out
          throw e
      | .ok _ =>
          closeFile out
          remove srcF

def delete (s : LocalStorage) (path : Str) : OsM Unit := removeAll (s.full path)

def exists_ (s : LocalStorage) (choice : Choice) (path : Str) (t : FS) : Except Errno Bool :=
  match t.stat choice (s.full path) with
  | .ok _ => .ok true
  | .error .noent => .ok false
  | .error e => .error e

/-- The size of a directory is up to the file system. The sizes of the entries that are
`lost` meanwhile are shown as 0. -/
def list (dirSize : List Str → Int) (s : LocalStorage) (choice : Choice) (lost : Str → Bool)
    (listPrefix : Str) (t : FS) : Except Errno (List ObjectInfo) :=
  let full := s.full listPrefix
  match t.readDir choice full with
  | .error e => .error e
  | .ok names => .ok (names.map fun name =>
      let l := locate (FS.joinPath full name)
      let size : Int := match t.look l with
        | none => 0
        | some .dir => dirSize (t.names l)
        | some (.file content) => content.length
      ⟨join [listPrefix, name], if lost name then 0 else size, t.look l = some .dir⟩)

/-- What can be read from the file that `Open` returns. -/
def open_ (s : LocalStorage) (choice : Choice) (path : Str) (t : FS) : Except Errno Entry :=
  (t.openFile choice (s.full path)).1.map t.shown

end LocalStorage

/-- A call of the backend that may change the tree. -/
inductive StorageCall
  | createFolder (path : Str)
  | atomicWrite (path : Str) (r : Reader)
  | move (src dst : Str)
  | delete (path : Str)

def StorageCall.prog (s : LocalStorage) : StorageCall → OsM Unit
  | .createFolder path => s.createFolder path
  | .atomicWrite path r => s.atomicWrite path r
  | .move src dst => s.move src dst
  | .delete path => s.delete path

/-- A sequence of calls, each against the choices it meets; the errors are ignored. -/
def runCalls (s : LocalStorage) : List (StorageCall × (Nat → Choice)) → FS → FS × List Effect
  | [], t => (t, [])
  | (c, choices) :: rest, t =>
      let ran := Prog.run (c.prog s) choices t
      let (t', effects) := runCalls s rest ran.state
      (t', ran.effects ++ effects)

/-! ## The backend without failures -/

/-- What the backend takes from its host: the texts of errors, the random part of temporary
names, and the sizes of directories. -/
structure Host where
  message : Errno → Str
  rand : Str
  dirSize : List Str → Int

def Host.run (host : Host) {α : Type} (p : OsM α) : Op FS α := fun t =>
  let ran := Prog.run p.run (fun _ => .smooth host.rand) t
  (ran.value.mapError host.message, ran.state)

/-- Reading a directory is an error. -/
def Host.reader (host : Host) : Entry → Reader
  | .dir => fun _ => ⟨[], [], .other (host.message .isdir)⟩
  | .file content => newReader content

/-- The backend on a host on which no call fails by itself. -/
def LocalStorage.on (s : LocalStorage) (host : Host) : Storage FS where
  createFolder path := host.run (s.createFolder path)
  atomicWrite path r := host.run (s.atomicWrite path r)
  move src dst := host.run (s.move src dst)
  delete path := host.run (s.delete path)
  exists_ path t := ((s.exists_ (.smooth []) path t).mapError host.message, t)
  list listPrefix t :=
    ((s.list host.dirSize (.smooth []) (fun _ => false) listPrefix t).mapError host.message, t)
  open_ path t := (((s.open_ (.smooth []) path t).map host.reader).mapError host.message, t)

/-! ## Where the operations act -/

section

variable {s : LocalStorage}

theorem full_eq (hbase : isAbs s.base = true) (p : Str) :
    s.full p = (locate s.base ++ locate p).path := by
  show join [s.base, clean (slash :: p)] = _
  rw [clean_slash, join_rooted hbase]

theorem locate_full (s : LocalStorage) (p : Str) :
    locate (s.full p) = locate s.base ++ locate p := by
  show locate (join [s.base, clean (slash :: p)]) = _
  rw [clean_slash, locate_join_path]

theorem full_ne_nil (s : LocalStorage) (p : Str) : s.full p ≠ [] := by
  show join [s.base, clean (slash :: p)] ≠ []
  have hrest : [s.base, clean (slash :: p)].dropWhile (· = []) ≠ [] := by
    by_cases hb : s.base = [] <;> simp [hb, clean_ne_nil]
  unfold join
  split
  · rename_i hnil
    exact absurd hnil hrest
  · exact clean_ne_nil _

theorem locate_dir_full (hbase : isAbs s.base = true) (p : Str) :
    locate (dir (s.full p)) = (locate s.base ++ locate p).dropLast := by
  rw [full_eq hbase, dir_path, locate_path]

theorem base_prefix_full (s : LocalStorage) (p : Str) :
    locate s.base <+: locate (s.full p) := by
  rw [locate_full]
  exact List.prefix_append _ _

/-- The directory of a target is above the base only if the target is the base. -/
theorem dir_full_comparable (hbase : isAbs s.base = true) (p : Str) :
    locate s.base <+: locate (dir (s.full p)) ∨ locate (dir (s.full p)) <+: locate s.base := by
  refine List.prefix_or_prefix_of_prefix (base_prefix_full s p) ?_
  rw [locate_dir_full hbase, locate_full]
  exact List.dropLast_prefix _

theorem base_prefix_dir_full (hbase : isAbs s.base = true) {p : Str}
    (h : locate p ≠ [] ∨ locate s.base = []) : locate s.base <+: locate (dir (s.full p)) := by
  rcases h with h | h
  · rw [locate_dir_full hbase, List.dropLast_append_of_ne_nil h]
    exact List.prefix_append _ _
  · rw [h]
    exact List.nil_prefix

/-- **`full` is a faithful map.** It gives the canonical path with the components of the cleaned
base and then those of the path cleaned from the root, none of them `..`. Two paths go to the same
string, and to the same place, exactly if they are the same when cleaned from the root. -/
theorem full_faithful (s : LocalStorage) (hbase : isAbs s.base = true) (p q : Str) :
    Canonical (s.full p) ∧
    pathComps (s.full p) = pathComps (clean s.base) ++ pathComps (clean ([slash] ++ p)) ∧
    dotdot ∉ pathComps (s.full p) ∧
    (s.full p = s.full q ↔ clean ([slash] ++ p) = clean ([slash] ++ q)) ∧
    (locate (s.full p) = locate (s.full q) ↔ clean ([slash] ++ p) = clean ([slash] ++ q)) := by
  have hclean : ∀ r : Str, clean ([slash] ++ r) = (locate r).path := clean_slash
  have hsame : locate (s.full p) = locate (s.full q) ↔ locate p = locate q := by
    rw [locate_full, locate_full, List.append_right_inj]
  refine ⟨⟨_, full_eq hbase p⟩, ?_, ?_, ?_, ?_⟩
  · rw [full_eq hbase, clean_rooted hbase, hclean, pathComps_path, pathComps_path, pathComps_path,
      List.map_append]
  · rw [full_eq hbase, pathComps_path]
    exact dotdot_not_mem_names _
  · rw [full_eq hbase, full_eq hbase, hclean, hclean, path_injective.eq_iff, path_injective.eq_iff,
      List.append_right_inj]
  · rw [hsame, hclean, hclean, path_injective.eq_iff]

/-- A base with redundant parts, and two paths that climb to the root and differ in spelling. -/
theorem full_faithful_spellings :
    isAbs (str "/srv/./x/") = true ∧
      LocalStorage.full ⟨str "/srv/./x/"⟩ (str "../a") = str "/srv/x/a" ∧
      LocalStorage.full ⟨str "/srv/./x/"⟩ (str "../a") =
        LocalStorage.full ⟨str "/srv/./x/"⟩ (str "b/..//a") := by
  refine ⟨by decide, by decide, ?_⟩
  exact (full_faithful ⟨str "/srv/./x/"⟩ (by decide) _ _).2.2.2.1.mpr (by decide)

/-! ## Staying within the base -/

/-- No condition on how a program ends. -/
abbrev Anyhow {α : Type} : Except Errno α → FS → Prop := fun _ _ => True

/-- No condition on the effects. -/
abbrev AnyEffect : Effect → Prop := fun _ => True

theorem copyChunks_within {base : Loc} {tmp : Handle} (chunks : List Str) (offset : Nat) (t : FS)
    (ho : Owned base tmp t) :
    Prog.Wp (Effect.Within base) Anyhow (LocalStorage.copyChunks tmp offset chunks).run t := by
  induction chunks generalizing offset t with
  | nil => exact trivial
  | cons chunk chunks ih =>
    unfold LocalStorage.copyChunks
    split
    · refine Prog.wp_bindE (wp_writeAt ho fun r t' ho' => ?_)
      cases r with
      | ok _ => exact ih _ t' ho'
      | error e => exact trivial
    · exact ih _ t ho

theorem ioCopy_within {base : Loc} {tmp : Handle} (reads : Reads) {t : FS}
    (ho : Owned base tmp t) :
    Prog.Wp (Effect.Within base) Anyhow (LocalStorage.ioCopy tmp reads).run t := by
  refine Prog.wp_bindE (Prog.wp_mono (fun r t' _ => ?_) (copyChunks_within _ 0 t ho))
  cases r with
  | error e => exact trivial
  | ok _ => cases reads.err <;> exact trivial

theorem atomicWrite_within (hbase : isAbs s.base = true) {path : Str}
    (h : locate path ≠ [] ∨ locate s.base = []) (r : Reader) (t : FS) :
    Prog.Wp (Effect.Within (locate s.base)) Anyhow (s.atomicWrite path r).run t := by
  have hdir := base_prefix_dir_full hbase h
  refine Prog.wp_bindE (wp_mkdirAll (Or.inl hdir) fun made t₁ => ?_)
  cases made with
  | error e => exact trivial
  | ok _ =>
    refine Prog.wp_bindE (wp_createTemp hdir (fun _ => trivial) fun tmp t₂ hname ho => ?_)
    refine Prog.wp_bindE (Prog.wp_attempt (Prog.wp_mono (fun copied t₃ _ => ?_)
      (ioCopy_within (r (32 * 1024)) ho)))
    cases copied with
    | error e => exact Prog.wp_bindE (wp_closeFile trivial)
    | ok _ =>
      exact Prog.wp_bindE (wp_closeFile
        (wp_rename hname (base_prefix_full s path) fun _ _ => trivial))

theorem move_within (hbase : isAbs s.base = true) (src dst : Str) (t : FS) :
    Prog.Wp (Effect.Within (locate s.base)) Anyhow (s.move src dst).run t := by
  have hsrc := base_prefix_full s src
  have hdst := base_prefix_full s dst
  refine Prog.wp_bindE (wp_mkdirAll (dir_full_comparable hbase dst) fun made t₁ => ?_)
  cases made with
  | error e => exact trivial
  | ok _ =>
    refine Prog.wp_bindE (Prog.wp_attempt (wp_rename hsrc hdst fun renamed t₂ => ?_))
    cases renamed with
    | ok _ => exact trivial
    | error e =>
      refine Prog.wp_bindE (wp_openFile fun opened => ?_)
      cases opened with
      | error e => exact trivial
      | ok input =>
        refine Prog.wp_bindE (wp_create hdst (fun _ => trivial) fun out t₃ ho => ?_)
        refine Prog.wp_bindE (Prog.wp_attempt (wp_copyFile ho fun copied t₄ => ?_))
        cases copied with
        | error e => exact Prog.wp_bindE (wp_closeFile trivial)
        | ok _ => exact Prog.wp_bindE (wp_closeFile (wp_remove hsrc fun _ _ => trivial))

/-- An `AtomicWrite` does not name the root, unless the base is the root itself. -/
def StorageCall.AvoidsRoot (base : Str) : StorageCall → Prop
  | .atomicWrite path _ => clean ([slash] ++ path) ≠ [slash] ∨ clean base = [slash]
  | _ => True

theorem locate_ne_nil_iff (p : Str) : clean ([slash] ++ p) ≠ [slash] ↔ locate p ≠ [] := by
  show clean (slash :: p) ≠ [slash] ↔ _
  rw [clean_slash, ← path_nil, path_injective.ne_iff]

/-- One call stays within the base. -/
theorem prog_within (hbase : isAbs s.base = true) {c : StorageCall} (hc : c.AvoidsRoot s.base)
    (t : FS) : Prog.Wp (Effect.Within (locate s.base)) Anyhow (c.prog s).run t := by
  cases c with
  | createFolder path => exact wp_mkdirAll (Or.inl (base_prefix_full s path)) fun _ _ => trivial
  | atomicWrite path r =>
    refine atomicWrite_within hbase (hc.imp (locate_ne_nil_iff path).mp fun hroot => ?_) r t
    rw [clean_rooted hbase, ← path_nil] at hroot
    exact path_injective hroot
  | move src dst => exact move_within hbase src dst t
  | delete path => exact wp_removeAll (base_prefix_full s path) fun _ _ => trivial

end

/-- **The local backend stays within its base.** In every run of calls against any
choices of the environment, in which no `AtomicWrite` names the root (or the base is
the root itself), everything that is created, written, renamed or removed is the base
or beneath it, or a new directory above the base; and the tree outside of the base is
as it was, up to such directories. -/
theorem runCalls_within (s : LocalStorage) (hbase : isAbs s.base = true)
    (calls : List (StorageCall × (Nat → Choice))) (hcalls : ∀ c ∈ calls, c.1.AvoidsRoot s.base)
    (t : FS) :
    (∀ e ∈ (runCalls s calls t).2, e.Within (locate s.base)) ∧
      Outside (locate s.base) t (runCalls s calls t).1 := by
  induction calls generalizing t with
  | nil => exact ⟨fun e he => absurd he List.not_mem_nil, .refl t⟩
  | cons c rest ih =>
    obtain ⟨call, choices⟩ := c
    obtain ⟨hfirst, _⟩ := Prog.run_of_wp
      (prog_within hbase (hcalls _ List.mem_cons_self) t) choices
    have houtside : Outside (locate s.base) t (Prog.run (call.prog s) choices t).state :=
      Prog.run_rel (M := os) (Outside (locate s.base)) Outside.refl
        (fun _ _ _ => Outside.trans) exec_outside (call.prog s).run choices t hfirst
    obtain ⟨hrest, hrest'⟩ := ih (fun c hc => hcalls c (List.mem_cons_of_mem _ hc))
      (Prog.run (call.prog s) choices t).state
    refine ⟨fun e he => ?_, houtside.trans hrest'⟩
    rcases List.mem_append.mp he with he | he
    · exact hfirst e he
    · exact hrest e he

/-! ## The temporary file of a write to the root -/

/-- A reader with one byte. -/
def oneByte : Reader := fun _ => ⟨[str "x"], [], .eof⟩

/-- The base `/srv` is created, and then the root is written. -/
def writeRoot : List (StorageCall × (Nat → Choice)) :=
  [(.createFolder (str "/"), fun _ => .smooth []),
    (.atomicWrite (str "/") oneByte, fun _ => .smooth (str "1"))]

/-- The temporary file is created in `/`, beside the base, and stays there. -/
theorem writeRoot_leaves_temp :
    let tmp : Loc := [⟨str ".tmp-1", by decide⟩]
    let ran := runCalls ⟨str "/srv"⟩ writeRoot FS.empty
    .created tmp false ∈ ran.2 ∧ ¬ (Effect.created tmp false).Within (locate (str "/srv")) ∧
      ran.1.look tmp = some (.file (str "x")) := by
  decide

/-- A write beneath the base, which has to be created first. -/
theorem runCalls_within_srv :
    let calls : List (StorageCall × (Nat → Choice)) :=
      [(.atomicWrite (str "/a/b") oneByte, fun _ => .smooth (str "1"))]
    (runCalls ⟨str "/srv"⟩ calls FS.empty).1.look (locate (str "/srv/a/b")) =
        some (.file (str "x")) ∧
      (∀ e ∈ (runCalls ⟨str "/srv"⟩ calls FS.empty).2, e.Within (locate (str "/srv"))) ∧
      Outside (locate (str "/srv")) FS.empty (runCalls ⟨str "/srv"⟩ calls FS.empty).1 := by
  refine ⟨by decide, runCalls_within ⟨str "/srv"⟩ (by decide) _ ?_ _⟩
  intro c hc
  rw [List.mem_singleton.mp hc]
  exact Or.inl (by decide)

/-! ## What a listing names -/

section

variable {s : LocalStorage}

theorem full_join (hbase : isAbs s.base = true) (listPrefix : Str) (n : Name) :
    s.full (join [listPrefix, n.val]) = join [s.full listPrefix, n.val] := by
  rw [full_eq hbase, full_eq hbase, locate_join_name, join_name, List.append_assoc]

theorem list_ok {dirSize : List Str → Int} {choice : Choice} {lost : Str → Bool}
    {listPrefix : Str} {t : FS} {out : List ObjectInfo}
    (h : s.list dirSize choice lost listPrefix t = .ok out) :
    out.map ObjectInfo.path =
      (t.names (locate (s.full listPrefix))).map fun name => join [listPrefix, name] := by
  unfold LocalStorage.list FS.readDir at h
  dsimp only at h
  split at h
  · cases h
  · rename_i names hread
    split at hread <;> cases hread
    cases h
    rw [List.map_map]
    rfl

theorem open_of_node {path : Str} {t : FS} (h : t.node (locate (s.full path)) ≠ none) (rand : Str) :
    ∃ entry, t.look (locate (s.full path)) = some entry ∧
      s.open_ (.smooth rand) path t = .ok entry := by
  obtain ⟨node, hnode⟩ := Option.ne_none_iff_exists'.mp h
  have hopen : (t.openFile (.smooth rand) (s.full path)).1 = .ok ⟨node, s.full path⟩ := by
    simp [FS.openFile, Choice.smooth, hnode]
  refine ⟨t.shown ⟨node, s.full path⟩, ?_, by rw [LocalStorage.open_, hopen]; rfl⟩
  cases node <;> simp [FS.look, FS.shown, hnode]

end

/-- **A listing names what it lists.** For every absolute base and every prefix, the path that
is shown for an entry leads to the name of the entry in the directory that was listed, and
opening it gives what stands there. -/
theorem list_names_entries (s : LocalStorage) (hbase : isAbs s.base = true) (listPrefix : Str) :
    (∀ n : Name, s.full (join [listPrefix, n.val]) = join [s.full listPrefix, n.val]) ∧
    ∀ dirSize choice lost t out, s.list dirSize choice lost listPrefix t = .ok out →
      out.map ObjectInfo.path =
          (t.names (locate (s.full listPrefix))).map (fun name => join [listPrefix, name]) ∧
        ∀ info ∈ out, ∃ (n : Name) (entry : Entry),
          s.full info.path = join [s.full listPrefix, n.val] ∧
          t.look (locate (s.full listPrefix) ++ [n]) = some entry ∧
          ∀ rand, s.open_ (.smooth rand) info.path t = .ok entry := by
  refine ⟨full_join hbase listPrefix, fun dirSize choice lost t out hlist => ?_⟩
  have hpaths := list_ok hlist
  refine ⟨hpaths, fun info hinfo => ?_⟩
  have hmem : info.path ∈ out.map ObjectInfo.path := List.mem_map_of_mem hinfo
  rw [hpaths] at hmem
  obtain ⟨name, hname, hpath⟩ := List.mem_map.mp hmem
  obtain ⟨n, rfl, hnode⟩ := FS.mem_names.mp hname
  have hfull : s.full info.path = join [s.full listPrefix, n.val] := by
    rw [← hpath, full_join hbase]
  have hloc : locate (s.full info.path) = locate (s.full listPrefix) ++ [n] := by
    rw [hfull, locate_join_name]
  have hopen : ∀ rand, ∃ entry, t.look (locate (s.full info.path)) = some entry ∧
      s.open_ (.smooth rand) info.path t = .ok entry := open_of_node (by rwa [hloc])
  obtain ⟨entry, hlook, _⟩ := hopen []
  refine ⟨n, entry, hfull, by rw [← hloc, hlook], fun rand => ?_⟩
  obtain ⟨entry', hlook', hread⟩ := hopen rand
  rw [hread, Option.some.inj (hlook'.symm.trans hlook)]

/-- A prefix that climbs is read from the base. -/
theorem list_names_entries_climbing :
    LocalStorage.full ⟨str "/srv"⟩ (str "../..//a/.") = str "/srv/a" ∧
      ∀ n : Name, LocalStorage.full ⟨str "/srv"⟩ (join [str "../..//a/.", n.val]) =
        join [str "/srv/a", n.val] := by
  have hfull : LocalStorage.full ⟨str "/srv"⟩ (str "../..//a/.") = str "/srv/a" := by decide
  have habs : isAbs (str "/srv") = true := by decide
  refine ⟨hfull, fun n => ?_⟩
  exact ((list_names_entries ⟨str "/srv"⟩ habs _).1 n).trans
    (congrArg (fun d => join [d, n.val]) hfull)

end FileEngine.Local
