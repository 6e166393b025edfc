import FileEngine.Filesystem.NoLitter

/-!
# Names that clash

The converse of what `NoLitter` says. If the temporary file gets the name of a target that
is not there, and everything else goes well, the call returns no error and the target is
not there (`atomicWriteFile_clash`). A move whose rename fails ends in the same way, and
its source is gone too (`moveUploadedFile_clash`). So the condition is the exact one
(`uploads_sound_iff`).
-/

namespace FileEngine.Filesystem

open Go Os Local

/-! ## Runs of the programs of this package -/

section

variable {α : Type} {E : os.Call → os.Choice → os.State → Prop} {t t' t'' : FS}

theorem reaches_call {p : OsM α} {a : α} (h : Prog.Reaches E p.run t (.ok a) t') :
    Prog.Reaches E (call p).run t (.ok a) t' :=
  Prog.reaches_bind h ⟨rfl, rfl⟩

theorem reaches_call_error {p : OsM α} {e : Errno} (h : Prog.Reaches E p.run t (.error e) t') :
    Prog.Reaches E (call p).run t (.error (.errno e)) t' :=
  Prog.reaches_bind h ⟨rfl, rfl⟩

theorem reaches_failing {p : FsM α} {message : String} {a : α}
    (h : Prog.Reaches E p.run t (.ok a) t') : Prog.Reaches E (failing message p).run t (.ok a) t' :=
  Prog.reaches_bind h ⟨rfl, rfl⟩

theorem reaches_deferring {cleanup body : FsM Unit} (hbody : Prog.Reaches E body.run t (.ok ()) t')
    (hcleanup : Prog.Reaches E cleanup.run t' (.ok ()) t'') :
    Prog.Reaches E (deferring cleanup body).run t (.ok ()) t'' :=
  Prog.reaches_bindE (Prog.reaches_attempt hbody) (Prog.reaches_bindE hcleanup ⟨rfl, rfl⟩)

end

section

variable {rand : Str} {src : Option Loc} {t : FS}

theorem reaches_checkHandle {h : Handle} :
    Prog.Reaches (Orderly rand src) (checkHandle h).run t (.ok ()) t :=
  Prog.reaches_call (.smooth rand) trivial rfl

theorem reaches_sync {h : Handle} :
    Prog.Reaches (Orderly rand src) (sync h).run t (.ok ()) t :=
  Prog.reaches_bindE (Prog.reaches_attempt reaches_checkHandle) ⟨rfl, rfl⟩

theorem reaches_closeFile {h : Handle} :
    Prog.Reaches (Orderly rand src) (closeFile h).run t (.ok ()) t :=
  ⟨.smooth rand, trivial, rfl, rfl⟩

theorem reaches_openFile {path : Str} {n : Node} (h : t.node (locate path) = some n) :
    Prog.Reaches (Orderly rand src) (openFile path).run t (.ok ⟨n, path⟩) t :=
  Prog.reaches_call (.smooth rand) trivial (openFile_of_node h rand)

theorem reaches_chmod {path : Str} {n : Node} (h : t.node (locate path) = some n) :
    Prog.Reaches (Orderly rand src) (chmod path).run t (.ok ()) t :=
  Prog.reaches_bindE (reaches_openFile h) ⟨rfl, rfl⟩

theorem reaches_createTemp {dirPath pre : Str} {n : Name}
    (hdir : t.node (locate dirPath) = some .dir) (hn : n.val = pre ++ rand)
    (hv : t.Vacant (locate dirPath ++ [n])) :
    Prog.Reaches (Orderly rand src) (createTemp dirPath pre).run t
      (.ok ⟨.file t.next, FS.joinPath dirPath n.val⟩)
      (t.insert (locate dirPath ++ [n]) false hv) := by
  rcases @createTemp_spec t dirPath pre hdir (.smooth rand) with ⟨hnot, _⟩ | ⟨n', hv', _, hn', heq⟩
  · rcases hnot with hfault | htaken
    · exact absurd rfl hfault
    · exact absurd hv.new (htaken n hn)
  · obtain rfl : n' = n := Name.ext (hn'.trans hn.symm)
    exact Prog.reaches_call (.smooth rand) rfl heq

theorem reaches_sanitizeAndJoin {l : LocalFs} {parts : List Str} (h : l.Accepts parts) :
    Prog.Reaches (Orderly rand src) (l.sanitizeAndJoin parts).run t (.ok (l.full parts)) t := by
  obtain ⟨p, hp⟩ := h
  have hopen : Prog.Reaches (Orderly rand src) (openFile (l.full parts)).run t (.error .busy) t :=
    Prog.reaches_call (⟨some (0, .busy), rand, []⟩ : Choice) trivial rfl
  have heval : Prog.Reaches (Orderly rand src) (evalSymlinks (l.full parts)).run t
      (.error .busy) t := Prog.reaches_bind hopen ⟨rfl, rfl⟩
  refine Prog.reaches_bindE (Prog.reaches_attempt (reaches_call_error heval)) ⟨?_, rfl⟩
  rw [hp, checkBase_ok hp]

variable (src)

theorem reaches_copyChunks {tmp : Handle} {i : Nat} (htmp : tmp.node = .file i) (offset : Nat)
    (chunks : List Str) (content : Str) :
    ∃ content', Prog.Reaches (Orderly rand src)
      (LocalStorage.copyChunks tmp offset chunks).run (t.write i content) (.ok ())
      (t.write i content') := by
  induction chunks generalizing offset content with
  | nil => exact ⟨content, rfl, rfl⟩
  | cons chunk chunks ih =>
    unfold LocalStorage.copyChunks
    split
    · rcases writeAt_file (t.write i content) (.smooth rand) htmp offset chunk with
        ⟨e, steps, hfault, _⟩ | ⟨_, heq⟩
      · cases hfault
      · rw [write_write] at heq
        obtain ⟨content', hrest⟩ := ih (offset + chunk.length) _
        exact ⟨content', Prog.reaches_bindE (Prog.reaches_call (.smooth rand) trivial heq) hrest⟩
    · exact ih _ _

theorem reaches_ioCopy {tmp : Handle} {i : Nat} (htmp : tmp.node = .file i) {reads : Reads}
    (heof : reads.err = .eof) :
    ∃ content, Prog.Reaches (Orderly rand src) (LocalStorage.ioCopy tmp reads).run t (.ok ())
      (t.write i content) := by
  have hchunks : ∃ content, Prog.Reaches (Orderly rand src)
      (LocalStorage.copyChunks tmp 0 (reads.chunks ++ [reads.last])).run (t.write i (t.data i))
      (.ok ()) (t.write i content) := reaches_copyChunks src htmp 0 _ _
  rw [write_data] at hchunks
  obtain ⟨content, hcopy⟩ := hchunks
  refine ⟨content, Prog.reaches_bindE hcopy ?_⟩
  rw [heof]
  exact ⟨rfl, rfl⟩

theorem reaches_copyFile {tmp input : Handle} {i j : Nat} (htmp : tmp.node = .file i)
    (hinput : input.node = .file j) :
    ∃ content, Prog.Reaches (Orderly rand src) (copyFile tmp input).run t (.ok ())
      (t.write i content) := by
  rcases writeAt_file t (.smooth rand) htmp 0 (t.data j) with ⟨e, steps, hfault, _⟩ | ⟨_, heq⟩
  · cases hfault
  · have hcopy : t.copyFile (.smooth rand) tmp input =
        t.writeAt (.smooth rand) tmp 0 (t.data j) := by
      rw [FS.copyFile, hinput]
    exact ⟨_, Prog.reaches_call (Choice.smooth rand) trivial (hcopy.trans heq)⟩

/-- With a clash, the new file is there until the cleanup, which leaves nothing of it. -/
theorem throughTemp_clash (m : Messages) {dirPath pre target : Str} {n : Name}
    {fill : Handle → OsM Unit} (hdir : t.node (locate dirPath) = some .dir)
    (hn : n.val = pre ++ rand) (htarget : locate dirPath ++ [n] = locate target)
    (hv : t.Vacant (locate dirPath ++ [n]))
    (hfills : ∀ tmp, tmp.node = .file t.next → ∃ content, Prog.Reaches (Orderly rand src)
      (fill tmp).run (t.insert _ false hv) (.ok ()) (withFile t _ hv content)) :
    ∃ t', Prog.Reaches (Orderly rand src) (throughTemp m dirPath pre fill target).run t (.ok ())
        t' ∧
      ∀ k, SameAt k t t' := by
  obtain ⟨content, hfill⟩ := hfills ⟨.file t.next, FS.joinPath dirPath n.val⟩ rfl
  have hname := FS.locate_joinPath dirPath n
  have hfile : (withFile t (locate dirPath ++ [n]) hv content).node
      (locate (FS.joinPath dirPath n.val)) = some (.file t.next) := by
    rw [hname, node_withFile]
  have hremoved : ∃ t' effects, (withFile t (locate dirPath ++ [n]) hv content).remove
      (.smooth rand) (FS.joinPath dirPath n.val) = (.ok (), t', effects) ∧ ∀ k, SameAt k t t' :=
    remove_withFile hname rfl
  obtain ⟨t', effects, hremove, hsame⟩ := hremoved
  have hbody : Prog.Reaches (Orderly rand src)
      (fillTemp m fill target ⟨.file t.next, FS.joinPath dirPath n.val⟩).run
      (t.insert (locate dirPath ++ [n]) false hv) (.ok ())
      (withFile t (locate dirPath ++ [n]) hv content) := by
    refine Prog.reaches_bindE (reaches_failing (reaches_call hfill)) ?_
    refine Prog.reaches_bindE (reaches_call reaches_sync) ?_
    refine Prog.reaches_bindE (reaches_failing (reaches_call reaches_checkHandle)) ?_
    refine Prog.reaches_bindE (reaches_failing (reaches_call (reaches_chmod hfile))) ?_
    have hfault : (Choice.smooth rand).fault = none := rfl
    exact reaches_failing (reaches_call (Prog.reaches_call (Choice.smooth rand) (fun _ _ => rfl)
      (renamePath_same hfile (hname.trans htarget) hfault)))
  have hcleanup : Prog.Reaches (Orderly rand src)
      (discardTemp ⟨.file t.next, FS.joinPath dirPath n.val⟩).run
      (withFile t (locate dirPath ++ [n]) hv content) (.ok ()) t' := by
    refine Prog.reaches_bindE (reaches_call reaches_closeFile) (reaches_call ?_)
    exact Prog.reaches_bindE (Prog.reaches_attempt (Prog.reaches_call (Choice.smooth rand)
      (fun _ => rfl) hremove)) ⟨rfl, rfl⟩
  refine ⟨t', ?_, hsame⟩
  exact Prog.reaches_bindE (reaches_failing (reaches_call (reaches_createTemp hdir hn hv)))
    (reaches_deferring hbody hcleanup)

/-- With a clash, the directory of the target is made, and the name in it is free. -/
theorem Clash.mkdirAll {l : LocalFs} {parts : List Str} {pre : Str}
    (h : Clash pre rand t (locate (l.full parts))) :
    ∃ (n : Name) (t₁ : FS), n.val = pre ++ rand ∧
      locate (dir (l.full parts)) ++ [n] = locate (l.full parts) ∧
      Prog.Reaches (Orderly rand src) (Os.mkdirAll (dir (l.full parts))).run t (.ok ()) t₁ ∧
      t₁.node (locate (dir (l.full parts))) = some .dir ∧
      t₁.Vacant (locate (dir (l.full parts)) ++ [n]) ∧
      ∀ k i, t.node k = some (.file i) → t₁.node k = some (.file i) := by
  obtain ⟨parent, n, htarget, hn, hnone, hfree⟩ := h
  have hdir : locate (dir (l.full parts)) = parent := by
    rw [LocalFs.full, locate_dir_join, ← LocalFs.full, htarget, List.dropLast_concat]
  subst hdir
  have hspec := mkdirAll_smooth t rand (dir (l.full parts))
  rcases hmkdir : t.mkdirAll (.smooth rand) (dir (l.full parts)) with ⟨r, t₁, effects⟩
  simp only [hmkdir] at hspec
  rcases hspec with ⟨hfile, _⟩ | ⟨_, rfl, hdirs, hrest⟩
  · exact absurd hfile hfree
  · have hparent := hdirs _ List.prefix_rfl
    have hbeyond : ¬ locate (dir (l.full parts)) ++ [n] <+: locate (dir (l.full parts)) := by
      intro hpre
      have hlen := hpre.length_le
      simp only [List.length_append, List.length_singleton] at hlen
      omega
    have hnew := (hrest _ hbeyond).1.trans (htarget ▸ hnone)
    refine ⟨n, t₁, hn, htarget.symm, Prog.reaches_call (Choice.smooth rand) trivial hmkdir, hparent,
      FS.vacant_of_dir (by simpa using hparent) hnew, fun k i hk => ?_⟩
    exact (hrest k fun hway => hfree ⟨k, i, hway, hk⟩).1.trans hk

end

/-- With a clash, a write can succeed and leave no target. -/
theorem atomicWriteFile_clash {l : LocalFs} {rand : Str} {ctxErr : Option Error} {data : Reader}
    {parts : List Str} {t : FS} (h : WriteClashes l rand ctxErr data parts t) :
    ∃ t', Prog.Reaches (Orderly rand none) (l.atomicWriteFile ctxErr data parts).run t (.ok ()) t' ∧
      t'.node (locate (l.full parts)) = none := by
  obtain ⟨rfl, hparts, haccepts, heof, hclash⟩ := h
  obtain ⟨n, t₁, hn, htarget, hmkdir, hdir, hv, _⟩ := hclash.mkdirAll none
  obtain ⟨t', htemp, hsame⟩ := throughTemp_clash none writeMessages hdir hn htarget hv
    (fun tmp htmp => reaches_ioCopy none htmp heof)
  refine ⟨t', ?_, ?_⟩
  · rw [atomicWriteFile_eq l data hparts]
    exact Prog.reaches_bindE (reaches_sanitizeAndJoin haccepts)
      (Prog.reaches_bindE (reaches_failing (reaches_call hmkdir)) htemp)
  · rw [(hsame _).1, ← htarget, hv.new]

theorem copyFileContents_clash {rand : Str} (src : Option Loc) {t : FS} {srcF dstF : Str}
    {j : Nat} {n : Name} (hj : t.node (locate srcF) = some (.file j))
    (hdir : t.node (locate (dir dstF)) = some .dir) (hn : n.val = str ".tmpcopy-" ++ rand)
    (htarget : locate (dir dstF) ++ [n] = locate dstF) (hv : t.Vacant (locate (dir dstF) ++ [n])) :
    ∃ t', Prog.Reaches (Orderly rand src) (LocalFs.copyFileContents srcF dstF).run t (.ok ()) t' ∧
      ∀ k, SameAt k t t' := by
  obtain ⟨t', htemp, hsame⟩ := throughTemp_clash src copyMessages hdir hn htarget hv
    (fun tmp htmp => reaches_copyFile src htmp (rfl : (⟨.file j, srcF⟩ : Handle).node = .file j))
  refine ⟨t', ?_, hsame⟩
  rw [copyFileContents_eq]
  refine Prog.reaches_bindE (reaches_failing (reaches_call (reaches_openFile hj))) ?_
  refine reaches_deferring ?_ (reaches_call reaches_closeFile)
  exact Prog.reaches_bindE (reaches_failing (reaches_call reaches_checkHandle)) htemp

/-- With a clash, a move can succeed although the file is gone. -/
theorem moveUploadedFile_clash {l : LocalFs} {rand : Str} {ctxErr : Option Error}
    {srcParts dstParts : List Str} {t : FS} (h : MoveClashes l rand ctxErr srcParts dstParts t) :
    ∃ t', Prog.Reaches (Orderly rand (some (locate (l.full srcParts))))
        (l.moveUploadedFile ctxErr srcParts dstParts).run t (.ok ()) t' ∧
      t'.node (locate (l.full dstParts)) = none := by
  obtain ⟨rfl, hsrcOk, hdstOk, ⟨j, hj⟩, hclash⟩ := h
  obtain ⟨n, t₁, hn, htarget, hmkdir, hdir, hv, hfiles⟩ :=
    hclash.mkdirAll (some (locate (l.full srcParts)))
  obtain ⟨t₂, hcopy, hsame⟩ := copyFileContents_clash (some (locate (l.full srcParts)))
    (hfiles _ j hj) hdir hn htarget hv
  have hgone : t₂.node (locate (l.full dstParts)) = none := by
    rw [(hsame _).1, ← htarget, hv.new]
  have hsrc : t₂.node (locate (l.full srcParts)) = some (.file j) :=
    (hsame _).1.trans (hfiles _ j hj)
  have hne : locate (l.full srcParts) ≠ locate (l.full dstParts) := by
    intro heq
    rw [heq, hgone] at hsrc
    cases hsrc
  have hfault : (Choice.smooth rand).fault = none := rfl
  obtain ⟨hp, hremove⟩ := remove_file hsrc hfault
  refine ⟨t₂.prune (· = locate (l.full srcParts)) hp, ?_, ?_⟩
  · rw [moveUploadedFile_eq]
    refine Prog.reaches_bindE (reaches_failing (reaches_sanitizeAndJoin hsrcOk)) ?_
    refine Prog.reaches_bindE (reaches_failing (reaches_sanitizeAndJoin hdstOk)) ?_
    refine Prog.reaches_bindE (reaches_failing (reaches_call hmkdir)) ?_
    -- the rename meets a failure, and the copy does what a write does
    refine Prog.reaches_bindE (Prog.reaches_attempt (reaches_call_error (Prog.reaches_call
      (⟨some (0, .busy), rand, []⟩ : Choice) (fun heq => absurd heq hne) rfl))) ?_
    refine Prog.reaches_bindE (reaches_failing hcopy) ?_
    exact reaches_failing (reaches_call (Prog.reaches_call (Choice.smooth rand) (fun _ => rfl)
      hremove))
  · exact (if_neg (by simpa using Ne.symm hne)).trans hgone

/-! ## Exactly when -/

theorem not_writeSound_of_missing {target : Loc} {data : Reader} {t t' : FS}
    (h : t'.node target = none) : ¬ WriteSound target data (.ok ()) t t' := by
  intro hsound
  obtain ⟨content, _, hlook⟩ := hsound.done rfl
  rw [FS.look, h] at hlook
  cases hlook

theorem not_moveSound_of_missing {src dst : Loc} {t t' : FS} (h : t'.node dst = none) :
    ¬ MoveSound src dst (.ok ()) t t' := by
  intro hsound
  obtain ⟨hsrc, hwhole⟩ := hsound.done rfl
  obtain ⟨entry, hentry⟩ := Option.ne_none_iff_exists'.mp hsrc
  have hlook := hwhole [] entry (by rwa [List.append_nil])
  rw [List.append_nil, FS.look, h] at hlook
  cases hlook

/-- **Writes and moves are whole and leave no litter**, whichever steps fail, exactly if the
temporary file does not get the name of a target that is not there. -/
theorem uploads_sound_iff (l : LocalFs) (rand : Str) (ctxErr : Option Error) (t : FS) :
    (∀ data parts,
      (∀ choices, Prog.Obeys (Orderly rand none) (l.atomicWriteFile ctxErr data parts).run
          choices t →
        let ran := Prog.run (l.atomicWriteFile ctxErr data parts).run choices t
        WriteSound (locate (l.full parts)) data ran.value t ran.state) ↔
      ¬ WriteClashes l rand ctxErr data parts t) ∧
    ∀ srcParts dstParts,
      (∀ choices, Prog.Obeys (Orderly rand (some (locate (l.full srcParts))))
          (l.moveUploadedFile ctxErr srcParts dstParts).run choices t →
        let ran := Prog.run (l.moveUploadedFile ctxErr srcParts dstParts).run choices t
        MoveSound (locate (l.full srcParts)) (locate (l.full dstParts)) ran.value t ran.state) ↔
      ¬ MoveClashes l rand ctxErr srcParts dstParts t := by
  refine ⟨fun data parts => ⟨fun h hclash => ?_, fun hclash choices hobeys => ?_⟩,
    fun srcParts dstParts => ⟨fun h hclash => ?_, fun hclash choices hobeys => ?_⟩⟩
  · obtain ⟨t', hreaches, hnone⟩ := atomicWriteFile_clash hclash
    obtain ⟨choices, hobeys, hvalue, hstate⟩ := Prog.run_of_reaches hreaches
    have hsound := h choices hobeys
    dsimp only at hsound
    rw [hvalue, hstate] at hsound
    exact not_writeSound_of_missing hnone hsound
  · exact Prog.run_of_under (atomicWriteFile_sound hclash) hobeys
  · obtain ⟨t', hreaches, hnone⟩ := moveUploadedFile_clash hclash
    obtain ⟨choices, hobeys, hvalue, hstate⟩ := Prog.run_of_reaches hreaches
    have hsound := h choices hobeys
    dsimp only at hsound
    rw [hvalue, hstate] at hsound
    exact not_moveSound_of_missing hnone hsound
  · exact Prog.run_of_under (moveUploadedFile_sound hclash) hobeys

theorem orderly_smooth (rand : Str) (src : Option Loc) (c : os.Call) (t : FS) :
    Orderly rand src c (Choice.smooth rand) t := by
  cases c with
  | createTemp => rfl
  | remove => exact fun _ => rfl
  | rename => exact fun _ _ => rfl
  | _ => trivial

/-- A write of `/srv/.tmp-1` whose temporary file is given the name `.tmp-1` returns no error,
and there is no such file. -/
theorem atomicWriteFile_removes_target :
    let prog := (⟨str "/srv"⟩ : LocalFs).atomicWriteFile none (newReader (str "x")) [str ".tmp-1"]
    let choices : Nat → Choice := fun _ => .smooth (str "1")
    let ran := Prog.run prog.run choices FS.empty
    Prog.Obeys (Orderly (str "1") none) prog.run choices FS.empty ∧ ran.value = .ok () ∧
      ¬ WriteSound (locate (str "/srv/.tmp-1")) (newReader (str "x")) ran.value FS.empty
        ran.state := by
  intro prog choices ran
  have hvalue : ran.value = .ok () := rfl
  refine ⟨Prog.obeys_of_forall (fun _ => orderly_smooth _ _) _ _, hvalue, ?_⟩
  rw [hvalue]
  exact not_writeSound_of_missing rfl

end FileEngine.Filesystem
