import FileEngine.Filesystem.LocalFs
import FileEngine.Storage.FailedWrites

/-!
# Writes and moves through a temporary file

`AtomicWriteFile` and the fallback of `MoveUploadedFile` fill a temporary file beside the
target, rename it and remove its name. `throughTemp` is what they have in common: it
replaces the target, or fails and leaves the tree as it was. The one exception is a
temporary name that is the name of the target itself. Then the rename moves nothing, the
removal takes the new file away, and there is no error.
-/

namespace FileEngine.Filesystem

open Go Os Local

/-- The random part of temporary names is `rand`, temporary files can be removed, and a rename
of something onto itself succeeds. Only the removal of `src` may fail. -/
def Orderly (rand : Str) (src : Option Loc) : os.Call → os.Choice → os.State → Prop
  | .createTemp _ _, choice, _ => choice.rand = rand
  | .remove path, choice, _ => some (locate path) ≠ src → choice.fault = none
  | .rename old new, choice, t =>
      locate old = locate new → t.node (locate old) ≠ none → choice.fault = none
  | _, _, _ => True

/-! ## Rules for the programs of this package -/

section

variable {ε α β : Type}

/-- How a program ends: with a result, or with some error. -/
def Post (done : α → FS → Prop) (failed : FS → Prop) : Except ε α → FS → Prop
  | .ok a, t => done a t
  | .error _, t => failed t

variable {E : os.Call → os.Choice → os.State → Prop} {t : FS}

theorem under_call {p : OsM α} {done : α → FS → Prop} {failed : FS → Prop}
    (h : Prog.Under E (Post done failed) p.run t) :
    Prog.Under E (Post done failed) (call p).run t := by
  refine Prog.under_bind (Prog.under_mono (fun r t' hr => ?_) h)
  cases r <;> exact hr

theorem under_failing {p : FsM α} {message : String} {done : α → FS → Prop} {failed : FS → Prop}
    (h : Prog.Under E (Post done failed) p.run t) :
    Prog.Under E (Post done failed) (failing message p).run t := by
  refine Prog.under_bind (Prog.under_mono (fun r t' hr => ?_) h)
  cases r <;> exact hr

theorem under_seq {p : ExceptT ε (Prog os) α} {f : α → ExceptT ε (Prog os) β}
    {done : β → FS → Prop} {failed : FS → Prop}
    (h : Prog.Under E
      (Post (fun a t' => Prog.Under E (Post done failed) (f a).run t') failed) p.run t) :
    Prog.Under E (Post done failed) (p >>= f).run t := by
  refine Prog.under_bindE (Prog.under_mono (fun r t' hr => ?_) h)
  cases r <;> exact hr

/-- The cleanup ends in its own way after either end of the body. -/
theorem under_deferring {cleanup body : FsM Unit} {filled spoilt done failed : FS → Prop}
    (hfilled : ∀ t', filled t' →
      Prog.Under E (Post (fun _ t'' => done t'') fun _ => False) cleanup.run t')
    (hspoilt : ∀ t', spoilt t' →
      Prog.Under E (Post (fun _ t'' => failed t'') fun _ => False) cleanup.run t')
    (h : Prog.Under E (Post (fun _ t' => filled t') spoilt) body.run t) :
    Prog.Under E (Post (fun _ t' => done t') failed) (deferring cleanup body).run t := by
  refine Prog.under_bindE (Prog.under_attempt (Prog.under_mono (fun result t' hbody => ?_) h))
  cases result with
  | error e =>
    refine Prog.under_bindE (Prog.under_mono (fun r t'' hr => ?_) (hspoilt t' hbody))
    cases r with
    | error e => exact hr.elim
    | ok _ => exact hr
  | ok _ =>
    refine Prog.under_bindE (Prog.under_mono (fun r t'' hr => ?_) (hfilled t' hbody))
    cases r with
    | error e => exact hr.elim
    | ok _ => exact hr

end

/-! ## Rules for the calls -/

section

variable {E : os.Call → os.Choice → os.State → Prop} {t : FS}

theorem under_checkHandle {h : Handle} {done : Unit → FS → Prop} {failed : FS → Prop}
    (hdone : done () t) (hfailed : failed t) :
    Prog.Under E (Post done failed) (checkHandle h).run t := by
  refine Prog.under_call fun choice _ r t' effects hexec => ?_
  rcases t.closeFile_cases choice h with ⟨_ | _, heq⟩ <;> cases heq.symm.trans hexec
  · exact hfailed
  · exact hdone

theorem under_openFile {path : Str} {done : Handle → FS → Prop} {failed : FS → Prop}
    (hdone : ∀ n, t.node (locate path) = some n → done ⟨n, path⟩ t) (hfailed : failed t) :
    Prog.Under E (Post done failed) (openFile path).run t := by
  refine Prog.under_call fun choice _ r t' effects hexec => ?_
  rcases t.openFile_cases choice path with ⟨e, heq⟩ | ⟨n, hn, heq⟩ <;>
    cases heq.symm.trans hexec
  · exact hfailed
  · exact hdone n hn

theorem under_chmod {path : Str} {done : Unit → FS → Prop} {failed : FS → Prop}
    (hdone : done () t) (hfailed : failed t) :
    Prog.Under E (Post done failed) (chmod path).run t :=
  under_seq (under_openFile (fun _ _ => hdone) hfailed)

theorem under_sync {h : Handle} {done : Unit → FS → Prop} {failed : FS → Prop} (hdone : done () t) :
    Prog.Under E (Post done failed) (sync h).run t := by
  have hcheck : Prog.Under E (Post (fun _ t' => t' = t) fun t' => t' = t) (checkHandle h).run t :=
    under_checkHandle rfl rfl
  refine Prog.under_bindE (Prog.under_attempt (Prog.under_mono (fun r t' hr => ?_) hcheck))
  have ht' : t' = t := by cases r <;> exact hr
  exact ht' ▸ hdone

theorem under_closeFile {h : Handle} {done : Unit → FS → Prop} {failed : FS → Prop}
    (hdone : done () t) : Prog.Under E (Post done failed) (closeFile h).run t :=
  Prog.under_of_wp (wp_closeFile (G := AnyEffect) hdone)

theorem under_mkdirAll {path : Str} {done : Unit → FS → Prop} {failed : FS → Prop}
    (hdone : ∀ t', AddsDirs (locate path) t t' → ¬ Obstructed t (locate path) →
      t'.node (locate path) = some .dir → done () t')
    (hfailed : ∀ t', AddsDirs (locate path) t t' → failed t') :
    Prog.Under E (Post done failed) (mkdirAll path).run t := by
  refine Prog.under_call fun choice _ r t' effects hexec => ?_
  have hadds := addsDirs_mkdirAll t choice path
  have hspec := mkdirs_spec t choice.fault [] (locate path) t.root
  have hmkdir : t.mkdirAll choice path = (r, t', effects) := hexec
  have hmkdirs : t.mkdirs choice.fault [] (locate path) = (r, t', effects) := hexec
  rw [hmkdir] at hadds
  rw [hmkdirs] at hspec
  rcases hspec with ⟨_, e, herr⟩ | ⟨hfree, hok, hdir⟩
  · obtain rfl : r = .error e := herr
    exact hfailed t' hadds
  · obtain rfl : r = .ok () := hok
    exact hdone t' hadds (fun hfile => hfree (Or.inr hfile)) hdir

end

/-! ## A temporary file -/

/-- The tree with a new file. -/
def withFile (t : FS) (l : Loc) (hv : t.Vacant l) (content : Str) : FS :=
  (t.insert l false hv).write t.next content

section

variable {t : FS} {l k : Loc} {hv : t.Vacant l} {content : Str}

theorem withFile_nil : withFile t l hv [] = t.insert l false hv := by
  have hdata : (t.insert l false hv).data t.next = [] := by simp [FS.insert]
  rw [withFile, ← hdata, write_data]

theorem node_withFile : (withFile t l hv content).node l = some (.file t.next) := by
  simp [withFile, FS.write, FS.insert]

theorem sameAt_withFile (h : k ≠ l) : SameAt k t (withFile t l hv content) :=
  sameAt_insert_write h

/-- Once the new file is removed, the tree is as it was. -/
theorem remove_withFile {path : Str} (hpath : locate path = l) {choice : Choice}
    (hfault : choice.fault = none) :
    ∃ t' effects, (withFile t l hv content).remove choice path = (.ok (), t', effects) ∧
      ∀ k, SameAt k t t' := by
  subst hpath
  have hfile : (withFile t (locate path) hv content).node (locate path) = some (.file t.next) :=
    node_withFile
  obtain ⟨hp, heq⟩ := remove_file hfile hfault
  refine ⟨_, _, heq, fun k => ?_⟩
  by_cases hk : k = locate path
  · subst hk
    refine ⟨by simp [FS.prune, hv.new], fun i hi => ?_⟩
    rw [hv.new] at hi
    cases hi
  · exact (sameAt_withFile hk).trans (sameAt_prune (by simpa using hk))

end

/-- The texts of the errors of `throughTemp`. -/
structure Messages where
  create : String
  fill : String
  close : String
  chmod : String
  rename : String

/-- Fill a temporary file and rename it to the target. -/
def fillTemp (m : Messages) (fill : Handle → OsM Unit) (target : Str) (tmp : Handle) :
    FsM Unit := do
  failing m.fill (call (fill tmp))
  call (sync tmp)
  failing m.close (call (close tmp))
  failing m.chmod (call (chmod tmp.name))
  failing m.rename (call (rename tmp.name target))

/-- The same with a new temporary file, whose name is removed afterwards. -/
def throughTemp (m : Messages) (parent pre : Str) (fill : Handle → OsM Unit) (target : Str) :
    FsM Unit := do
  let tmp ← failing m.create (call (createTemp parent pre))
  deferring (discardTemp tmp) (fillTemp m fill target tmp)

/-- The program fills a new file. If it succeeds, the content is a new one. -/
def Fills (E : os.Call → os.Choice → os.State → Prop) (New : Str → Prop) (t : FS) (parent : Loc)
    (fill : Handle → OsM Unit) : Prop :=
  ∀ (n : Name) (hv : t.Vacant (parent ++ [n])) (name : Str),
    Prog.Under E (Post (fun _ t' => ∃ content, New content ∧ t' = withFile t _ hv content)
      fun t' => ∃ content, t' = withFile t _ hv content) (fill ⟨.file t.next, name⟩).run
      (t.insert _ false hv)

/-- Nothing but the target is new, and that is a file with a new content. -/
def Replaced (New : Str → Prop) (target : Loc) (t t' : FS) : Prop :=
  (∃ content, New content ∧ t'.look target = some (.file content)) ∧
    ∀ k, k ≠ target → SameAt k t t'

section

variable {rand : Str} {src : Option Loc} {t : FS} {parent : Loc} {n : Name}
  {hv : t.Vacant (parent ++ [n])} {content : Str}

/-- The removal of a temporary file that is still there. -/
theorem under_removeTemp {path : Str} (hpath : locate path = parent ++ [n])
    (hsrc : some (parent ++ [n]) ≠ src) :
    Prog.Under (Orderly rand src) (Post (fun _ t' => ∀ k, SameAt k t t') fun _ => False)
      (removeQuietly path).run (withFile t (parent ++ [n]) hv content) := by
  refine Prog.under_bindE (Prog.under_attempt (Prog.under_call
    fun choice hchoice r t' effects hexec => ?_))
  obtain ⟨t'', effects', heq, hsame⟩ := remove_withFile hpath (hchoice (hpath ▸ hsrc))
  cases heq.symm.trans hexec
  exact hsame

/-- The removal of a name that is not there any more. -/
theorem under_removeMissing {path : Str} (h : t.node (locate path) = none) {done : FS → Prop}
    (hdone : done t) {E : os.Call → os.Choice → os.State → Prop} :
    Prog.Under E (Post (fun _ t' => done t') fun _ => False) (removeQuietly path).run t := by
  refine Prog.under_bindE (Prog.under_attempt (Prog.under_call
    fun choice hchoice r t' effects hexec => ?_))
  obtain ⟨e, heq⟩ := remove_missing h choice
  cases heq.symm.trans hexec
  exact hdone

/-- The temporary file at the target, with the name of the temporary file gone. -/
theorem replaced_rename {New : Str → Prop} {target : Loc} (hnew : New content)
    (hne : parent ++ [n] ≠ target)
    {hm : (withFile t (parent ++ [n]) hv content).Movable (parent ++ [n]) target}
    (hdst : (withFile t (parent ++ [n]) hv content).node target ≠ some .dir) :
    let t' := (withFile t (parent ++ [n]) hv content).rename (parent ++ [n]) target hm
    t'.node (parent ++ [n]) = none ∧ Replaced New target t t' := by
  intro t'
  have hnot : ¬ target <+: parent ++ [n] := by
    intro hpre
    have hnone := FS.node_beneath hdst hpre hne
    rw [node_withFile] at hnone
    cases hnone
  have hgone : t'.node (parent ++ [n]) = none := by
    show FS.movedNode _ _ _ _ = none
    simp [FS.movedNode, hnot]
  refine ⟨hgone, ⟨content, hnew, ?_⟩, fun k hk => ?_⟩
  · rw [FS.look_rename_dst, withFile, look_insert_write]
  · by_cases hkt : k = parent ++ [n]
    · subst hkt
      refine ⟨hgone.trans hv.new.symm, fun i hi => ?_⟩
      rw [hv.new] at hi
      cases hi
    · exact (sameAt_withFile hkt).trans (sameAt_rename_file node_withFile hdst hkt hk)

/-- Before the cleanup the temporary file is at the target, or still in its own place. -/
theorem fillTemp_sound {m : Messages} {target name : Str} {New : Str → Prop}
    {fill : Handle → OsM Unit} (hname : locate name = parent ++ [n])
    (hfill : Fills (Orderly rand src) New t parent fill)
    (hne : ∀ content, New content → parent ++ [n] ≠ locate target) :
    Prog.Under (Orderly rand src)
      (Post (fun _ t' => t'.node (parent ++ [n]) = none ∧ Replaced New (locate target) t t')
        fun t' => ∃ content, t' = withFile t (parent ++ [n]) hv content)
      (fillTemp m fill target ⟨.file t.next, name⟩).run (t.insert (parent ++ [n]) false hv) := by
  refine under_seq (under_failing (under_call (Prog.under_mono (fun r t' hr => ?_)
    (hfill n hv name))))
  cases r with
  | error e => exact hr
  | ok _ =>
    obtain ⟨content, hnew, rfl⟩ := hr
    have hspoilt : ∃ content', withFile t (parent ++ [n]) hv content =
      withFile t (parent ++ [n]) hv content' := ⟨content, rfl⟩
    refine under_seq (under_call (under_sync ?_))
    refine under_seq (under_failing (under_call (under_checkHandle ?_ hspoilt)))
    refine under_seq (under_failing (under_call (under_chmod ?_ hspoilt)))
    refine under_failing (under_call (Prog.under_call fun choice _ r t' effects hexec => ?_))
    rcases FS.renamePath_cases _ choice name target with ⟨e, heq⟩ | ⟨hsame, _⟩ | ⟨hm, hdst, heq⟩
    · cases heq.symm.trans hexec
      exact hspoilt
    · exact absurd (hname.symm.trans hsame) (hne content hnew)
    · cases heq.symm.trans hexec
      clear heq hexec
      revert hm
      rw [hname]
      exact fun hm => replaced_rename hnew (hne content hnew) hdst

/-- **Through a temporary file.** The target is replaced, or nothing is changed. The name of
the temporary file must not be that of a target which is not there, if there is something
to be written at all. -/
theorem throughTemp_sound {m : Messages} {dirPath pre target : Str} {New : Str → Prop}
    {fill : Handle → OsM Unit} (hdir : t.node (locate dirPath) = some .dir)
    (hsrc : ∀ l, some l = src → t.node l ≠ none)
    (hfill : Fills (Orderly rand src) New t (locate dirPath) fill)
    (hclash : ∀ (n : Name) content, n.val = pre ++ rand → New content →
      locate dirPath ++ [n] = locate target → t.node (locate target) ≠ none) :
    Prog.Under (Orderly rand src)
      (Post (fun _ t' => Replaced New (locate target) t t') fun t' => ∀ k, SameAt k t t')
      (throughTemp m dirPath pre fill target).run t := by
  refine under_seq (under_failing (under_call (Prog.under_call
    fun choice hrand r t' effects hexec => ?_)))
  rcases createTemp_spec hdir choice with ⟨_, e, heq⟩ | ⟨n, hv, _, hn, heq⟩ <;>
    cases heq.symm.trans hexec
  · exact fun k => .refl k t
  · have hname := FS.locate_joinPath dirPath n
    have hne : ∀ content, New content → locate dirPath ++ [n] ≠ locate target := by
      intro content hnew hsame
      refine hclash n content (hn.trans (congrArg _ hrand)) hnew hsame ?_
      rw [← hsame, hv.new]
    have htmp : some (locate dirPath ++ [n]) ≠ src := fun h => hsrc _ h hv.new
    refine under_deferring (fun t' ht' => ?_) (fun t' ht' => ?_) (fillTemp_sound hname hfill hne)
    · exact under_seq (under_call (under_closeFile (under_call
        (under_removeMissing (hname ▸ ht'.1) ht'.2))))
    · obtain ⟨content, rfl⟩ := ht'
      exact under_seq (under_call (under_closeFile (under_call (under_removeTemp hname htmp))))

end

/-! ## What the temporary file is filled with -/

section

variable {E : os.Call → os.Choice → os.State → Prop} {t : FS}

/-- The copy of a reader. -/
theorem fills_ioCopy (data : Reader) (parent : Loc) :
    Fills E (Whole data) t parent fun tmp => LocalStorage.ioCopy tmp (data (32 * 1024)) := by
  intro n hv name
  refine Prog.under_mono (fun r t' hr => ?_)
    (under_ioCopy rfl (by simp [FS.insert]) (data (32 * 1024)))
  obtain ⟨content, rfl, hcontent, _⟩ := hr
  cases r with
  | error e => exact ⟨content, rfl⟩
  | ok _ => exact ⟨content, hcontent rfl, rfl⟩

/-- The copy of an open file. -/
theorem fills_copyFile {input : Handle} (parent : Loc)
    (hinput : ∀ j, input.node = .file j → j < t.next) :
    Fills E (fun content => ∃ j, input.node = .file j ∧ content = t.data j) t parent
      fun tmp => copyFile tmp input := by
  intro n hv name
  have hdata : ∀ i, (t.insert (parent ++ [n]) false hv).data i =
      if i = t.next then [] else t.data i :=
    fun i => by simp [FS.insert, Function.update_apply]
  refine Prog.under_call fun choice _ r t' effects hexec => ?_
  have hcopy : (t.insert (parent ++ [n]) false hv).copyFile choice ⟨.file t.next, name⟩ input =
    (r, t', effects) := hexec
  unfold FS.copyFile at hcopy
  cases hnode : input.node with
  | dir =>
    rw [hnode] at hcopy
    cases hcopy
    exact ⟨[], withFile_nil.symm⟩
  | file j =>
    have hj := hinput j hnode
    rw [hnode] at hcopy
    dsimp only at hcopy
    rw [hdata j, if_neg (by omega)] at hcopy
    rcases writeAt_file (t.insert (parent ++ [n]) false hv) choice
      (h := ⟨.file t.next, name⟩) rfl 0 (t.data j) with ⟨e, steps, _, heq⟩ | ⟨_, heq⟩
    · cases heq.symm.trans hcopy
      exact ⟨_, rfl⟩
    · rw [hdata, if_pos rfl, overlay_empty] at heq
      cases heq.symm.trans hcopy
      exact ⟨_, ⟨j, rfl, rfl⟩, rfl⟩

end

end FileEngine.Filesystem
