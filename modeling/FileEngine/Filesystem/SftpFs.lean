import FileEngine.Filesystem.LocalFs
import FileEngine.Go.Relative
import FileEngine.Go.Time

/-!
# The file system of a remote server

`internal/filesystem/sftp_client.go`. The remote tree is a file tree on which any call may
fail; a rename may be refused because something stands at the target. The connection is not
modelled.

`remoteJoin` joins the parts beneath the base as the local file systems do, but nothing
checks the result. A path stays at the base or beneath it exactly if it is absolute, or if
it comes down through the names that it climbs over (`sftp_stays_iff`). `AtomicWriteFile`
also names the directory of its target, which lies above the base if the target is the base.
-/

namespace FileEngine.Filesystem

open Go Os Local

structure SftpFs where
  baseRoot : Str

namespace SftpFs

def remoteJoin (s : SftpFs) (parts : List Str) : Str :=
  let joined := join parts
  let cleaned := clean joined
  let cleaned := if isAbs cleaned then (clean cleaned).drop 1 else cleaned
  join [s.baseRoot, cleaned]

def createFolder (s : SftpFs) (parts : List Str) : FsM Unit :=
  failing "sftp mkdirall failed" (call (mkdirAll (s.remoteJoin parts)))

/-- The temporary file beside the target, named by the clock. -/
def tempPath (full : Str) (nano : Int) : Str := full ++ str ".tmp-" ++ formatInt nano

def atomicWriteFile (s : SftpFs) (nano : Int) (data : Reader) (parts : List Str) : FsM Unit := do
  let full := s.remoteJoin parts
  let tmp := tempPath full nano
  failing "sftp ensure dir" (call (mkdirAll (dir full)))
  let f ← failing "sftp open tmp" (call (create tmp))
  deferring (call (closeFile f)) do
    failing "sftp write tmp" (call (LocalStorage.ioCopy f (data (32 * 1024))))
    -- the error of `Chmod` is ignored
    let _ ← Prog.attempt (call (checkHandle f))
    failing "sftp rename" (call (rename tmp full))

def moveUploadedFile (s : SftpFs) (srcParts dstParts : List Str) : FsM Unit := do
  let src := s.remoteJoin srcParts
  let dst := s.remoteJoin dstParts
  match ← Prog.attempt (call (rename src dst)) with
  | .ok _ => return
  | .error _ =>
      let srcF ← failing "sftp open src" (call (openFile src))
      deferring (call (closeFile srcF)) do
        let dstF ← failing "sftp open dst" (call (create dst))
        deferring (call (closeFile dstF)) do
          failing "sftp copy" (call (copyFile dstF srcF))
          failing "sftp remove src" (call (remove src))

end SftpFs

/-! ## The paths that are named -/

/-- The paths in a call. -/
def pathsOf : Call → List Str
  | .mkdirAll path | .remove path | .removeAll path | .create path | .openFile path => [path]
  | .createTemp dir _ => [dir]
  | .rename old new => [old, new]
  | .writeAt _ _ _ | .copyFile _ _ | .closeFile _ => []

/-- Whatever happens on the server, the program names only paths in `P`. -/
def NamesOnly (P : Str → Prop) (p : FsM Unit) : Prop :=
  ∀ t, Prog.Issues (M := os) (fun c => ∀ path ∈ pathsOf c, P path) p.run t

section

variable {α : Type} {P : os.Call → Prop} {t : FS}

theorem issues_call {p : OsM α} (h : Prog.Issues P p.run t) : Prog.Issues P (call p).run t :=
  Prog.issues_bind h fun _ _ => trivial

theorem issues_failing {p : FsM α} {message : String} (h : Prog.Issues P p.run t) :
    Prog.Issues P (failing message p).run t :=
  Prog.issues_bind h fun _ _ => trivial

theorem issues_deferring {cleanup body : FsM Unit} (hbody : Prog.Issues P body.run t)
    (hcleanup : ∀ t', Prog.Issues P cleanup.run t') :
    Prog.Issues P (deferring cleanup body).run t := by
  refine Prog.issues_bindE (Prog.issues_attempt hbody) fun result t' => ?_
  refine Prog.issues_bindE (hcleanup t') fun _ _ => ?_
  cases result <;> exact trivial

theorem issues_closeFile {h : Handle} (hP : P (.closeFile h)) :
    Prog.Issues P (closeFile h).run t :=
  ⟨hP, fun _ => trivial⟩

theorem issues_copyChunks {tmp : Handle} (h : ∀ offset bytes, P (.writeAt tmp offset bytes))
    (chunks : List Str) (offset : Nat) (t : FS) :
    Prog.Issues P (LocalStorage.copyChunks tmp offset chunks).run t := by
  induction chunks generalizing offset t with
  | nil => exact trivial
  | cons chunk chunks ih =>
    unfold LocalStorage.copyChunks
    split
    · exact Prog.issues_bindE (Prog.issues_call (h offset chunk)) fun _ _ => ih _ _
    · exact ih _ _

theorem issues_ioCopy {tmp : Handle} (h : ∀ offset bytes, P (.writeAt tmp offset bytes))
    (reads : Reads) : Prog.Issues P (LocalStorage.ioCopy tmp reads).run t := by
  refine Prog.issues_bindE (issues_copyChunks h _ 0 t) fun _ _ => ?_
  cases reads.err <;> exact trivial

end

section

variable {P : Str → Prop} {s : SftpFs}

/-- A program that starts with a call names the paths of that call. -/
theorem NamesOnly.first {c : os.Call} {k : c.Reply → Prog os (Except Error Unit)} {p : FsM Unit}
    (hp : p.run = Prog.step c k) (h : NamesOnly P p) : ∀ path ∈ pathsOf c, P path := by
  have hall := h FS.empty
  rw [hp] at hall
  exact hall.1

theorem createFolder_names_iff (parts : List Str) :
    NamesOnly P (s.createFolder parts) ↔ P (s.remoteJoin parts) := by
  constructor
  · intro h
    exact h.first rfl _ (by simp [pathsOf])
  · intro h t
    exact issues_failing (issues_call (Prog.issues_call (by simpa [pathsOf] using h)))

theorem atomicWriteFile_names_iff (nano : Int) (data : Reader) (parts : List Str)
    (htmp : P (SftpFs.tempPath (s.remoteJoin parts) nano))
    (hdir : P (dir (s.remoteJoin parts)) → P (s.remoteJoin parts)) :
    NamesOnly P (s.atomicWriteFile nano data parts) ↔ P (dir (s.remoteJoin parts)) := by
  constructor
  · intro h
    exact h.first rfl _ (by simp [pathsOf])
  · intro h t
    refine Prog.issues_bindE (issues_failing (issues_call (Prog.issues_call ?_))) fun _ t₁ => ?_
    · simpa [pathsOf] using h
    refine Prog.issues_bindE (issues_failing (issues_call (Prog.issues_call ?_))) fun f t₂ => ?_
    · simpa [pathsOf] using htmp
    refine issues_deferring ?_ fun _ => issues_call (issues_closeFile (by simp [pathsOf]))
    refine Prog.issues_bindE (issues_failing (issues_call (issues_ioCopy ?_ _))) fun _ t₃ => ?_
    · simp [pathsOf]
    refine Prog.issues_bindE (Prog.issues_attempt (issues_call (Prog.issues_call ?_))) fun _ t₄ => ?_
    · simp [pathsOf]
    refine issues_failing (issues_call (Prog.issues_call ?_))
    simpa [pathsOf] using ⟨htmp, hdir h⟩

theorem moveUploadedFile_names_iff (src dst : List Str) :
    NamesOnly P (s.moveUploadedFile src dst) ↔ P (s.remoteJoin src) ∧ P (s.remoteJoin dst) := by
  constructor
  · intro h
    have hfirst := h.first rfl
    exact ⟨hfirst _ (by simp [pathsOf]), hfirst _ (by simp [pathsOf])⟩
  · rintro ⟨hsrc, hdst⟩ t
    refine Prog.issues_bindE (Prog.issues_attempt (issues_call (Prog.issues_call ?_))) fun r t₁ => ?_
    · simpa [pathsOf] using ⟨hsrc, hdst⟩
    cases r with
    | ok _ => exact trivial
    | error e =>
      refine Prog.issues_bindE (issues_failing (issues_call (Prog.issues_call ?_))) fun srcF t₂ => ?_
      · simpa [pathsOf] using hsrc
      refine issues_deferring ?_ fun _ => issues_call (issues_closeFile (by simp [pathsOf]))
      refine Prog.issues_bindE (issues_failing (issues_call (Prog.issues_call ?_))) fun dstF t₃ => ?_
      · simpa [pathsOf] using hdst
      refine issues_deferring ?_ fun _ => issues_call (issues_closeFile (by simp [pathsOf]))
      refine Prog.issues_bindE (issues_failing (issues_call (Prog.issues_call ?_))) fun _ t₄ => ?_
      · simp [pathsOf]
      refine issues_failing (issues_call (Prog.issues_call ?_))
      simpa [pathsOf] using hsrc

/-! ## Where the parts lead -/

/-- A directory is not the temporary file of something in it. -/
theorem dir_ne_tempPath (k : Loc) (nano : Int) : dir k.path ≠ SftpFs.tempPath k.path nano := by
  intro h
  have hle : weight (k.dropLast.map Name.val) ≤ weight (k.map Name.val) := by
    rcases List.eq_nil_or_concat' k with rfl | ⟨d, n, rfl⟩
    · exact le_rfl
    · simp
  have hlen := congrArg List.length h
  simp only [dir_path, SftpFs.tempPath, List.length_append, length_path] at hlen
  have htmp : (str ".tmp-").length = 5 := rfl
  omega

theorem remoteJoin_eq (habs : isAbs s.baseRoot = true) (parts : List Str) :
    s.remoteJoin parts = ((locate s.baseRoot).reroot (join parts)).path := by
  rw [← join_stripped habs]
  unfold SftpFs.remoteJoin
  dsimp only
  congr 3
  by_cases h : isAbs (clean (join parts)) = true
  · obtain ⟨t, ht⟩ := isAbs_iff.mp h
    rw [if_pos h, if_pos h, clean_clean, ht]
    simp [trimPrefix, hasPrefix]
  · rw [if_neg h, if_neg h]

theorem atOrBeneath_iff (habs : isAbs s.baseRoot = true) (hclean : clean s.baseRoot = s.baseRoot)
    (k : Loc) : AtOrBeneath s.baseRoot k.path ↔ locate s.baseRoot <+: k := by
  rw [← atOrBeneath_path, ← clean_rooted habs, hclean]

end

/-- **Staying under the remote base.** For every absolute clean base and all parts, the joined
path is at the base or beneath it exactly if the parts are absolute or come back through
the names that they climb over; `CreateFolder` and `MoveUploadedFile` name only such paths
under the same condition. `AtomicWriteFile` names, besides its temporary file, only such
paths exactly if its target is strictly beneath the base, or the base is the root. -/
theorem sftp_stays_iff (s : SftpFs) (habs : isAbs s.baseRoot = true)
    (hclean : clean s.baseRoot = s.baseRoot) :
    (∀ parts, AtOrBeneath s.baseRoot (s.remoteJoin parts) ↔
      (locate s.baseRoot).Keeps (join parts)) ∧
    (∀ parts, NamesOnly (AtOrBeneath s.baseRoot) (s.createFolder parts) ↔
      (locate s.baseRoot).Keeps (join parts)) ∧
    (∀ src dst, NamesOnly (AtOrBeneath s.baseRoot) (s.moveUploadedFile src dst) ↔
      (locate s.baseRoot).Keeps (join src) ∧ (locate s.baseRoot).Keeps (join dst)) ∧
    ∀ nano data parts, NamesOnly
        (fun p => AtOrBeneath s.baseRoot p ∨ p = SftpFs.tempPath (s.remoteJoin parts) nano)
        (s.atomicWriteFile nano data parts) ↔
      (locate s.baseRoot).Enters (join parts) ∨ s.baseRoot = [slash] := by
  have hkeeps : ∀ parts, AtOrBeneath s.baseRoot (s.remoteJoin parts) ↔
      (locate s.baseRoot).Keeps (join parts) := by
    intro parts
    rw [remoteJoin_eq habs, atOrBeneath_iff habs hclean, prefix_reroot_iff]
  refine ⟨hkeeps, fun parts => ?_, fun src dst => ?_, fun nano data parts => ?_⟩
  · rw [createFolder_names_iff, hkeeps]
  · rw [moveUploadedFile_names_iff, hkeeps, hkeeps]
  · have hpath := remoteJoin_eq habs parts
    have hdir : AtOrBeneath s.baseRoot (dir (s.remoteJoin parts)) ↔
        (locate s.baseRoot).Enters (join parts) ∨ s.baseRoot = [slash] := by
      rw [hpath, dir_path, atOrBeneath_iff habs hclean, prefix_dropLast_iff, beneath_reroot_iff,
        ← path_injective.eq_iff, path_nil, ← clean_rooted habs, hclean]
    have hnot : dir (s.remoteJoin parts) ≠ SftpFs.tempPath (s.remoteJoin parts) nano := by
      rw [hpath]
      exact dir_ne_tempPath _ nano
    rw [atomicWriteFile_names_iff nano data parts (Or.inr rfl), or_iff_left hnot, hdir]
    intro hP
    have hbeneath := (or_iff_left hnot).mp hP
    rw [hpath, dir_path, atOrBeneath_iff habs hclean] at hbeneath
    rw [hpath, atOrBeneath_iff habs hclean]
    exact Or.inl (hbeneath.trans ( List.dropLast_prefix _))

/-- Parts that climb over the base and come back by its name. -/
theorem sftp_stays_coming_back :
    let s : SftpFs := ⟨str "/srv"⟩
    s.remoteJoin [str "../srv/x"] = str "/srv/x" ∧
      (AtOrBeneath s.baseRoot (s.remoteJoin [str "../srv/x"]) ↔
        (locate s.baseRoot).Keeps (join [str "../srv/x"])) := by
  have habs : isAbs (str "/srv") = true := by decide
  have hclean : clean (str "/srv") = str "/srv" := by decide
  exact ⟨by decide, (sftp_stays_iff ⟨str "/srv"⟩ habs hclean).1 [str "../srv/x"]⟩

/-- Parts that climb over the base: `CreateFolder` asks for a directory beside it. -/
theorem remoteJoin_escapes :
    let s : SftpFs := ⟨str "/srv"⟩
    s.remoteJoin [str "../x"] = str "/x" ∧ ¬ AtOrBeneath s.baseRoot (s.remoteJoin [str "../x"]) ∧
      (Prog.run (s.createFolder [str "../x"]).run (fun _ => Choice.smooth []) FS.empty).effects =
        [.created (locate (str "/x")) true] := by
  unfold AtOrBeneath
  decide

end FileEngine.Filesystem
