import FileEngine.Go.Filepath
import FileEngine.Go.Program
import FileEngine.Os.FileSystem

/-!
# System calls

The calls of the package `os` that the storage code makes, over file trees. The
environment has a `Choice` at each call: the call may fail, after some part of its work
where it does its work in steps; it picks the random part of the name of a temporary
file; and it says what an interrupted `RemoveAll` leaves behind. A call reports its
effects, so that one can say what a program has touched.

A path is resolved by `locate`, which reads a relative path from the root.

The `_cases` theorems say all that a call can do; nothing else unfolds the calls.
-/

namespace FileEngine.Os

open Go

inductive Errno
  | noent
  | notdir
  | isdir
  | exist
  | notempty
  | inval
  | busy
  | other (message : Str)
deriving DecidableEq

inductive Effect
  | created (l : Loc) (isDir : Bool)
  | written (l : Loc)
  | renamed (src dst : Loc)
  | removed (l : Loc)
deriving DecidableEq

structure Choice where
  /-- The call fails with this error after so many steps. -/
  fault : Option (Nat × Errno)
  /-- The random part of a temporary name. -/
  rand : Str
  /-- What an interrupted `RemoveAll` leaves. -/
  kept : List Loc

/-- No failure, with the given random name. -/
def Choice.smooth (rand : Str) : Choice := ⟨none, rand, []⟩

instance : Inhabited Choice := ⟨.smooth []⟩

/-- An open file or directory, and the name it was opened with. -/
structure Handle where
  node : Node
  name : Str

abbrev Result (α : Type) := Except Errno α × FS × List Effect

namespace FS

/-! ## Directories -/

/-- Create the missing directories on the way from `k` down. -/
def mkdirs : FS → Option (Nat × Errno) → Loc → Loc → Result Unit
  | t, some (0, e), _, _ => (.error e, t, [])
  | t, _, _, [] => (.ok (), t, [])
  | t, fault, k, n :: rest =>
      let fault := fault.map fun (steps, e) => (steps - 1, e)
      if hnew : t.node (k ++ [n]) = none then
        if hdir : t.node k = some .dir then
          let (r, t', effects) := mkdirs
            (t.insert (k ++ [n]) true ⟨by simp, by simpa using hdir, hnew⟩) fault (k ++ [n]) rest
          (r, t', .created (k ++ [n]) true :: effects)
        else (.error .notdir, t, [])
      else if t.node (k ++ [n]) = some .dir then mkdirs t fault (k ++ [n]) rest
      else (.error .notdir, t, [])

def mkdirAll (t : FS) (choice : Choice) (path : Str) : Result Unit :=
  t.mkdirs choice.fault [] (locate path)

/-- The error for a location with nothing there. -/
def missing (t : FS) (l : Loc) : Errno :=
  if l.inits.any fun k => t.node k ≠ none ∧ t.node k ≠ some .dir then .notdir else .noent

def hasChild (t : FS) (l : Loc) : Bool :=
  t.dom.any fun k => k ≠ [] ∧ k.dropLast = l ∧ t.node k ≠ none

theorem prunable_leaf {t : FS} {l : Loc} (hroot : l ≠ []) (hchild : ¬ t.hasChild l = true) :
    t.Prunable (· = l) where
  root := decide_eq_false (Ne.symm hroot)
  down := by
    intro k hk hlast hnode
    refine absurd (List.any_eq_true.mpr ⟨k, t.mem_dom k hnode, ?_⟩) hchild
    simpa [hk, hnode] using hlast

def remove (t : FS) (choice : Choice) (path : Str) : Result Unit :=
  let l := locate path
  match choice.fault with
  | some (_, e) => (.error e, t, [])
  | none =>
      if t.node l = none then (.error (t.missing l), t, [])
      else if hroot : l = [] then (.error .busy, t, [])
      else if hchild : t.hasChild l then (.error .notempty, t, [])
      else (.ok (), t.prune (· = l) (prunable_leaf hroot hchild), [.removed l])

/-- What `RemoveAll` of `l` removes: all but the root and the way to what is kept. -/
def gone (l : Loc) (kept : List Loc) (k : Loc) : Bool :=
  l <+: k ∧ k ≠ [] ∧ ¬ ∃ x ∈ kept, k <+: x

theorem prunable_gone (t : FS) (l : Loc) (kept : List Loc) : t.Prunable (gone l kept) where
  root := by simp [gone]
  down := by
    intro k hk h _
    simp only [gone, decide_eq_true_eq] at h ⊢
    refine ⟨h.1.trans ( List.dropLast_prefix k), hk, ?_⟩
    rintro ⟨x, hx, hkx⟩
    exact h.2.2 ⟨x, hx, ( List.dropLast_prefix k).trans hkx⟩

def removed (t : FS) (l : Loc) (kept : List Loc) : FS :=
  t.prune (gone l kept) (prunable_gone t l kept)

/-- The path of a directory as seen from within. -/
def endsWithDot (path : Str) : Bool := path = dot ∨ hasSuffix path (slash :: dot)

def removeAll (t : FS) (choice : Choice) (path : Str) : Result Unit :=
  let l := locate path
  let effects (kept : List Loc) : List Effect :=
    (t.dom.filter fun k => gone l kept k ∧ t.node k ≠ none).map .removed
  if path = [] then (.ok (), t, [])
  else if endsWithDot path then (.error .inval, t, [])
  else
    match choice.fault with
    | some (_, e) => (.error e, t.removed l choice.kept, effects choice.kept)
    | none =>
        if t.node l = none ∧ t.missing l = .notdir then (.error .notdir, t, [])
        else (if l = [] then .error .busy else .ok (), t.removed l [], effects [])

/-! ## Files -/

/-- A directory and a name in it. -/
def joinPath (dir name : Str) : Str :=
  if hasSuffix dir [slash] then dir ++ name else dir ++ [slash] ++ name

theorem locate_joinPath (dir : Str) (n : Name) :
    locate (joinPath dir n.val) = locate dir ++ [n] := by
  unfold joinPath
  split
  · rename_i h
    obtain ⟨d, rfl⟩ := List.isSuffixOf_iff_suffix.mp h
    rw [List.append_assoc, List.singleton_append, locate_append_val, locate_append_slash]
  · rw [List.append_assoc, List.singleton_append, locate_append_val]

def createTemp (t : FS) (choice : Choice) (dir pre : Str) : Result Handle :=
  match choice.fault with
  | some (_, e) => (.error e, t, [])
  | none =>
      if hname : IsName (pre ++ choice.rand) then
        let l := locate dir ++ [⟨pre ++ choice.rand, hname⟩]
        if hdir : t.node (locate dir) = some .dir then
          if hnew : t.node l = none then
            (.ok ⟨.file t.next, joinPath dir (pre ++ choice.rand)⟩,
              t.insert l false ⟨by simp [l], by simpa [l] using hdir, hnew⟩, [.created l false])
          else (.error .exist, t, [])
        else (.error (t.missing (locate dir)), t, [])
      else (.error .inval, t, [])

theorem vacant_of_dir {t : FS} {l : Loc} (hdir : t.node l.dropLast = some .dir)
    (hnew : t.node l = none) : t.Vacant l where
  ne := by
    rintro rfl
    rw [t.root] at hnew
    cases hnew
  dir := hdir
  new := hnew

/-- `os.Create`: an existing file is truncated. -/
def create (t : FS) (choice : Choice) (path : Str) : Result Handle :=
  let l := locate path
  match choice.fault with
  | some (_, e) => (.error e, t, [])
  | none =>
      match hnode : t.node l with
      | some .dir => (.error .isdir, t, [])
      | some (.file i) => (.ok ⟨.file i, path⟩, t.write i [], (t.places i).map .written)
      | none =>
          if hdir : t.node l.dropLast = some .dir then
            (.ok ⟨.file t.next, path⟩,
              t.insert l false (vacant_of_dir hdir hnode), [.created l false])
          else (.error (t.missing l), t, [])

/-- `os.Open`, for reading. -/
def openFile (t : FS) (choice : Choice) (path : Str) : Result Handle :=
  match choice.fault with
  | some (_, e) => (.error e, t, [])
  | none =>
      match t.node (locate path) with
      | none => (.error (t.missing (locate path)), t, [])
      | some n => (.ok ⟨n, path⟩, t, [])

/-- Bytes written over a content at an offset; a gap is filled with zeros. -/
def overlay (content : Str) (offset : Nat) (bytes : Str) : Str :=
  content.take offset ++ List.replicate (offset - content.length) 0 ++ bytes ++
    content.drop (offset + bytes.length)

/-- Write at an offset; a failing write may have written a part. -/
def writeAt (t : FS) (choice : Choice) (h : Handle) (offset : Nat) (bytes : Str) : Result Unit :=
  match h.node with
  | .dir => (.error .isdir, t, [])
  | .file i =>
      match choice.fault with
      | some (steps, e) =>
          (.error e, t.write i (overlay (t.data i) offset (bytes.take steps)),
            (t.places i).map .written)
      | none => (.ok (), t.write i (overlay (t.data i) offset bytes), (t.places i).map .written)

/-- `io.Copy` between two open files, from their starts. -/
def copyFile (t : FS) (choice : Choice) (dst src : Handle) : Result Unit :=
  match src.node with
  | .dir => (.error .isdir, t, [])
  | .file j => t.writeAt choice dst 0 (t.data j)

/-- Closing has no effect on the tree, but it may report an error. -/
def closeFile (t : FS) (choice : Choice) (_h : Handle) : Result Unit :=
  match choice.fault with
  | some (_, e) => (.error e, t, [])
  | none => (.ok (), t, [])

/-- `os.Rename`, which refuses to replace a directory. -/
def renamePath (t : FS) (choice : Choice) (old new : Str) : Result Unit :=
  let src := locate old
  let dst := locate new
  match choice.fault with
  | some (_, e) => (.error e, t, [])
  | none =>
      if t.node src = none then (.error (t.missing src), t, [])
      else if hdst : t.node dst = some .dir then (.error .exist, t, [])
      else if src = dst then (.ok (), t, [.renamed src dst])
      else if hsub : src <+: dst then (.error .inval, t, [])
      else if hdir : t.node dst.dropLast = some .dir then
        if t.node src = some .dir ∧ t.node dst ≠ none then (.error .notdir, t, [])
        else
          (.ok (), t.rename src dst ⟨fun hnil => hdst (hnil ▸ t.root), hsub, hdir⟩,
            [.renamed src dst])
      else (.error (t.missing dst), t, [])

/-! ## What a call can do -/

theorem remove_cases (t : FS) (choice : Choice) (path : Str) :
    (∃ e, t.remove choice path = (.error e, t, [])) ∨
      ∃ h, t.remove choice path =
        (.ok (), t.prune (· = locate path) h, [.removed (locate path)]) := by
  unfold remove
  split
  · exact Or.inl ⟨_, rfl⟩
  · dsimp only
    split_ifs with _ hroot hchild
    · exact Or.inl ⟨_, rfl⟩
    · exact Or.inl ⟨_, rfl⟩
    · exact Or.inl ⟨_, rfl⟩
    · exact Or.inr ⟨prunable_leaf hroot hchild, rfl⟩

theorem removeAll_cases (t : FS) (choice : Choice) (path : Str) :
    (∃ r, t.removeAll choice path = (r, t, [])) ∨
      ∃ r kept, t.removeAll choice path = (r, t.removed (locate path) kept,
        (t.dom.filter fun k => gone (locate path) kept k ∧ t.node k ≠ none).map .removed) := by
  unfold removeAll
  cases choice.fault with
  | some fault =>
    dsimp only
    split_ifs
    · exact Or.inl ⟨_, rfl⟩
    · exact Or.inl ⟨_, rfl⟩
    · exact Or.inr ⟨_, _, rfl⟩
  | none =>
    dsimp only
    split_ifs
    · exact Or.inl ⟨_, rfl⟩
    · exact Or.inl ⟨_, rfl⟩
    · exact Or.inl ⟨_, rfl⟩
    · exact Or.inr ⟨_, _, rfl⟩
    · exact Or.inr ⟨_, _, rfl⟩

theorem createTemp_cases (t : FS) (choice : Choice) (dir pre : Str) :
    (∃ e, t.createTemp choice dir pre = (.error e, t, [])) ∨
      ∃ (n : Name) (h : t.Vacant (locate dir ++ [n])), n.val = pre ++ choice.rand ∧
        t.createTemp choice dir pre = (.ok ⟨.file t.next, joinPath dir n.val⟩,
          t.insert (locate dir ++ [n]) false h, [.created (locate dir ++ [n]) false]) := by
  unfold createTemp
  split
  · exact Or.inl ⟨_, rfl⟩
  · dsimp only
    split_ifs with hname hdir hnew
    · exact Or.inr ⟨⟨pre ++ choice.rand, hname⟩, ⟨by simp, by simpa using hdir, hnew⟩, rfl, rfl⟩
    · exact Or.inl ⟨_, rfl⟩
    · exact Or.inl ⟨_, rfl⟩
    · exact Or.inl ⟨_, rfl⟩

theorem create_cases (t : FS) (choice : Choice) (path : Str) :
    (∃ e, t.create choice path = (.error e, t, [])) ∨
      (∃ i, t.node (locate path) = some (.file i) ∧ t.create choice path =
        (.ok ⟨.file i, path⟩, t.write i [], (t.places i).map .written)) ∨
      ∃ h, t.create choice path = (.ok ⟨.file t.next, path⟩,
        t.insert (locate path) false h, [.created (locate path) false]) := by
  unfold create
  split
  · exact Or.inl ⟨_, rfl⟩
  · dsimp only
    split
    · exact Or.inl ⟨_, rfl⟩
    · exact Or.inr (Or.inl ⟨_, by assumption, rfl⟩)
    · rename_i hnew
      split_ifs with hdir
      · exact Or.inr (Or.inr ⟨vacant_of_dir hdir hnew, rfl⟩)
      · exact Or.inl ⟨_, rfl⟩

theorem openFile_cases (t : FS) (choice : Choice) (path : Str) :
    (∃ e, t.openFile choice path = (.error e, t, [])) ∨
      ∃ n, t.node (locate path) = some n ∧ t.openFile choice path = (.ok ⟨n, path⟩, t, []) := by
  unfold openFile
  split
  · exact Or.inl ⟨_, rfl⟩
  · split
    · exact Or.inl ⟨_, rfl⟩
    · exact Or.inr ⟨_, by assumption, rfl⟩

theorem writeAt_cases (t : FS) (choice : Choice) (h : Handle) (offset : Nat) (bytes : Str) :
    (∃ e, t.writeAt choice h offset bytes = (.error e, t, [])) ∨
      ∃ i r content, h.node = .file i ∧ t.writeAt choice h offset bytes =
        (r, t.write i content, (t.places i).map .written) := by
  unfold writeAt
  split
  · exact Or.inl ⟨_, rfl⟩
  · split
    · exact Or.inr ⟨_, _, _, by assumption, rfl⟩
    · exact Or.inr ⟨_, _, _, by assumption, rfl⟩

theorem copyFile_cases (t : FS) (choice : Choice) (dst src : Handle) :
    (∃ e, t.copyFile choice dst src = (.error e, t, [])) ∨
      ∃ i r content, dst.node = .file i ∧ t.copyFile choice dst src =
        (r, t.write i content, (t.places i).map .written) := by
  unfold copyFile
  split
  · exact Or.inl ⟨_, rfl⟩
  · exact writeAt_cases t choice dst 0 _

theorem closeFile_cases (t : FS) (choice : Choice) (h : Handle) :
    ∃ r, t.closeFile choice h = (r, t, []) := by
  unfold closeFile
  split <;> exact ⟨_, rfl⟩

theorem renamePath_cases (t : FS) (choice : Choice) (old new : Str) :
    (∃ e, t.renamePath choice old new = (.error e, t, [])) ∨
      (locate old = locate new ∧ t.renamePath choice old new =
        (.ok (), t, [.renamed (locate old) (locate new)])) ∨
      ∃ h, t.node (locate new) ≠ some .dir ∧ t.renamePath choice old new =
        (.ok (), t.rename (locate old) (locate new) h, [.renamed (locate old) (locate new)]) := by
  generalize hrun : t.renamePath choice old new = ran
  unfold renamePath at hrun
  split at hrun
  · exact Or.inl ⟨_, hrun.symm⟩
  · dsimp only at hrun
    split_ifs at hrun with _ hdst hsame hsub hdir
    · exact Or.inl ⟨_, hrun.symm⟩
    · exact Or.inl ⟨_, hrun.symm⟩
    · exact Or.inr (Or.inl ⟨hsame, hrun.symm⟩)
    · exact Or.inl ⟨_, hrun.symm⟩
    · exact Or.inl ⟨_, hrun.symm⟩
    · exact Or.inr (Or.inr ⟨_, hdst, hrun.symm⟩)
    · exact Or.inl ⟨_, hrun.symm⟩

end FS

/-! ## The machine -/

inductive Call
  | mkdirAll (path : Str)
  | remove (path : Str)
  | removeAll (path : Str)
  | createTemp (dir pre : Str)
  | create (path : Str)
  | openFile (path : Str)
  | writeAt (h : Handle) (offset : Nat) (bytes : Str)
  | copyFile (dst src : Handle)
  | closeFile (h : Handle)
  | rename (old new : Str)

def Call.Reply : Call → Type
  | .createTemp _ _ | .create _ | .openFile _ => Except Errno Handle
  | _ => Except Errno Unit

def exec : (c : Call) → Choice → FS → c.Reply × FS × List Effect
  | .mkdirAll path, choice, t => t.mkdirAll choice path
  | .remove path, choice, t => t.remove choice path
  | .removeAll path, choice, t => t.removeAll choice path
  | .createTemp dir pre, choice, t => t.createTemp choice dir pre
  | .create path, choice, t => t.create choice path
  | .openFile path, choice, t => t.openFile choice path
  | .writeAt h offset bytes, choice, t => t.writeAt choice h offset bytes
  | .copyFile dst src, choice, t => t.copyFile choice dst src
  | .closeFile h, choice, t => t.closeFile choice h
  | .rename old new, choice, t => t.renamePath choice old new

abbrev os : Machine where
  State := FS
  Call := Call
  Reply := Call.Reply
  Choice := Choice
  Effect := Effect
  exec := exec

/-- A program that returns an error or a result. -/
abbrev OsM := ExceptT Errno (Prog os)

def mkdirAll (path : Str) : OsM Unit := Prog.step (Call.mkdirAll path) Prog.ret

def remove (path : Str) : OsM Unit := Prog.step (Call.remove path) Prog.ret

def removeAll (path : Str) : OsM Unit := Prog.step (Call.removeAll path) Prog.ret

def createTemp (dir pre : Str) : OsM Handle := Prog.step (Call.createTemp dir pre) Prog.ret

def create (path : Str) : OsM Handle := Prog.step (Call.create path) Prog.ret

def openFile (path : Str) : OsM Handle := Prog.step (Call.openFile path) Prog.ret

def writeAt (h : Handle) (offset : Nat) (bytes : Str) : OsM Unit :=
  Prog.step (Call.writeAt h offset bytes) Prog.ret

def copyFile (dst src : Handle) : OsM Unit := Prog.step (Call.copyFile dst src) Prog.ret

/-- `Close` with its error ignored. -/
def closeFile (h : Handle) : OsM Unit :=
  Prog.step (Call.closeFile h) fun _ => Prog.ret (.ok ())

def rename (old new : Str) : OsM Unit := Prog.step (Call.rename old new) Prog.ret

end FileEngine.Os
