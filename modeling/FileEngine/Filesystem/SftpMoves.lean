import FileEngine.Filesystem.NoLitter
import FileEngine.Filesystem.SftpFs

/-!
# Moves on a remote server

`SftpFs.MoveUploadedFile` renames, and copies if the rename fails for whatever reason. The
server is at the end of a line: every call may fail there, and the reply of a call that was
made may be lost, so that the client sees an error (`heard`).

The fallback opens the source, truncates the target, copies and removes the source. Where
the target is the source itself there is nothing left to be copied, the copy succeeds, and
the removal takes the last name of the file away. A server that refuses a rename onto
something that is there brings every such move to this end. A directory is not copied at
all, but a target beneath it has been truncated by then. Apart from these two cases
(`Swallowed`), the source is whole in one of the two places, and at the target if there is
no error (`sftp_move_keeps_iff`).
-/

namespace FileEngine.Filesystem

open Go Os Local

/-! ## A line that loses replies -/

/-- What the client sees of a call whose reply is lost. -/
def lose (e : Errno) : (c : Call) → c.Reply
  | .createTemp _ _ | .create _ | .openFile _ => Except.error (α := Handle) e
  | .mkdirAll _ | .remove _ | .removeAll _ | .writeAt _ _ _ | .copyFile _ _ | .closeFile _
  | .rename _ _ => Except.error (α := Unit) e

/-- The reply, unless it is lost with some error. -/
def heard : Option Errno → (c : os.Call) → os.Reply c → os.Reply c
  | none, _, r => r
  | some e, c, _ => lose e c

abbrev sftp : Machine := os.remote heard

/-- Whatever the server and the line do, the program ends in `Q`. -/
abbrev Remotely {ε α : Type} (Q : Except ε α → FS → Prop) (p : ExceptT ε (Prog os) α) (t : FS) :
    Prop :=
  Prog.Wp (M := sftp) AnyEffect Q (p.run.remote heard) t

section

variable {ε α β : Type} {t : FS} {done : β → FS → Prop} {failed : FS → Prop}

theorem remotely_call {p : OsM β} (h : Remotely (Post done failed) p t) :
    Remotely (Post done failed) (call p) t := by
  refine Prog.wp_remote_bind (M := os) heard (Prog.wp_mono (fun r t' hr => ?_) h)
  cases r <;> exact hr

theorem remotely_failing {p : FsM β} {message : String} (h : Remotely (Post done failed) p t) :
    Remotely (Post done failed) (failing message p) t := by
  refine Prog.wp_remote_bind (M := os) heard (Prog.wp_mono (fun r t' hr => ?_) h)
  cases r <;> exact hr

theorem remotely_seq {p : ExceptT ε (Prog os) α} {f : α → ExceptT ε (Prog os) β}
    (h : Remotely (Post (fun a t' => Remotely (Post done failed) (f a) t') failed) p t) :
    Remotely (Post done failed) (p >>= f) t := by
  refine Prog.wp_remote_bindE (M := os) heard (Prog.wp_mono (fun r t' hr => ?_) h)
  cases r <;> exact hr

/-- The rule for one call: look at whatever it can do, with its reply and without. -/
theorem remotely_one {c : Call} {Q : c.Reply → FS → Prop}
    (h : ∀ choice r t' effects, exec c choice t = (r, t', effects) →
      Q r t' ∧ ∀ e, Q (lose e c) t') :
    Prog.Wp (M := sftp) AnyEffect Q ((Prog.step (M := os) c Prog.ret).remote heard) t := by
  refine Prog.wp_remote_call (M := os) heard fun choice r t' effects hexec => ?_
  refine ⟨fun _ _ => trivial, fun lost => ?_⟩
  cases lost with
  | none => exact (h choice r t' effects hexec).1
  | some e => exact (h choice r t' effects hexec).2 e

theorem remotely_openFile {path : Str} {done : Handle → FS → Prop}
    (hdone : ∀ n, t.node (locate path) = some n → done ⟨n, path⟩ t) (hfailed : failed t) :
    Remotely (Post done failed) (openFile path) t := by
  refine remotely_one fun choice r t' effects hexec => ?_
  rcases t.openFile_cases choice path with ⟨e, heq⟩ | ⟨n, hn, heq⟩ <;>
    cases heq.symm.trans hexec
  · exact ⟨hfailed, fun _ => hfailed⟩
  · exact ⟨hdone n hn, fun _ => hfailed⟩

/-- The target is an empty file with inode `i`, and all else is as before. -/
structure Truncated (dst : Loc) (i : Nat) (t t' : FS) : Prop where
  was : t.node dst ≠ some .dir
  node : t'.node dst = some (.file i)
  empty : t'.data i = []
  others : ∀ k, k ≠ dst → SameAt k t t'

theorem remotely_create {path : Str} {done : Handle → FS → Prop}
    (hdone : ∀ i t', Truncated (locate path) i t t' → done ⟨.file i, path⟩ t')
    (hspoilt : ∀ i t', Truncated (locate path) i t t' → failed t') (hfailed : failed t) :
    Remotely (Post done failed) (create path) t := by
  refine remotely_one fun choice r t' effects hexec => ?_
  rcases t.create_cases choice path with ⟨e, heq⟩ | ⟨i, hi, heq⟩ | ⟨hv, heq⟩ <;>
    cases heq.symm.trans hexec
  · exact ⟨hfailed, fun _ => hfailed⟩
  · have htrunc : Truncated (locate path) i t (t.write i []) := by
      refine ⟨by simp [hi], hi, by simp [FS.write], fun k hk => ?_⟩
      exact sameAt_write fun hk' => hk (t.single k _ i hk' hi)
    exact ⟨hdone i _ htrunc, fun _ => hspoilt i _ htrunc⟩
  · have htrunc : Truncated (locate path) t.next t (t.insert (locate path) false hv) :=
      ⟨by simp [hv.new], by simp [FS.insert], by simp [FS.insert], fun k hk => sameAt_insert hk⟩
    exact ⟨hdone _ _ htrunc, fun _ => hspoilt _ _ htrunc⟩

/-- A copy into an empty file: all of a file, a part of it, or nothing of a directory. -/
theorem remotely_copyFile {out input : Handle} {done : Unit → FS → Prop} {i : Nat}
    (hi : out.node = .file i) (hempty : t.data i = [])
    (hdone : ∀ j, input.node = .file j → done () (t.write i (t.data j)))
    (hcut : ∀ j content, input.node = .file j → failed (t.write i content))
    (hdir : input.node = .dir → failed t) :
    Remotely (Post done failed) (copyFile out input) t := by
  refine remotely_one fun choice r t' effects hexec => ?_
  have hcopy : t.copyFile choice out input = (r, t', effects) := hexec
  unfold FS.copyFile at hcopy
  cases hnode : input.node with
  | dir =>
    rw [hnode] at hcopy
    cases hcopy
    exact ⟨hdir hnode, fun _ => hdir hnode⟩
  | file j =>
    rw [hnode] at hcopy
    rcases writeAt_file t choice hi 0 (t.data j) with ⟨e, steps, _, heq⟩ | ⟨_, heq⟩
    · cases heq.symm.trans hcopy
      exact ⟨hcut j _ hnode, fun _ => hcut j _ hnode⟩
    · rw [hempty, overlay_empty] at heq
      cases heq.symm.trans hcopy
      exact ⟨hdone j hnode, fun _ => hcut j _ hnode⟩

theorem remotely_remove {path : Str} {done : Unit → FS → Prop}
    (hdone : ∀ hp, done () (t.prune (· = locate path) hp))
    (hlost : ∀ hp, failed (t.prune (· = locate path) hp)) (hfailed : failed t) :
    Remotely (Post done failed) (remove path) t := by
  refine remotely_one fun choice r t' effects hexec => ?_
  rcases t.remove_cases choice path with ⟨e, heq⟩ | ⟨hp, heq⟩ <;> cases heq.symm.trans hexec
  · exact ⟨hfailed, fun _ => hfailed⟩
  · exact ⟨hdone hp, fun _ => hlost hp⟩

/-- Closing a file changes nothing, and what the client hears of it is ignored. -/
theorem remotely_closing {h : Handle} {body : FsM Unit} {Q : Except Error Unit → FS → Prop}
    (hbody : Remotely Q body t) : Remotely Q (deferring (call (closeFile h)) body) t := by
  have hclose : ∀ t', Remotely (fun r t'' => r = .ok () ∧ t'' = t') (call (closeFile h)) t' := by
    intro t' choice
    obtain ⟨closed, heq⟩ := t'.closeFile_cases choice.1 h
    have hstate : (exec (.closeFile h) choice.1 t').2.1 = t' :=
      congrArg (fun ran => ran.2.1) heq
    exact ⟨fun _ _ => trivial, rfl, hstate⟩
  refine Prog.wp_remote_bindE (M := os) heard (Prog.wp_remote_attempt (M := os) heard
    (Prog.wp_mono (fun result t' hr => ?_) hbody))
  refine Prog.wp_remote_bindE (M := os) heard (Prog.wp_mono (fun r t'' hclosed => ?_) (hclose t'))
  obtain ⟨rfl, rfl⟩ := hclosed
  cases result <;> exact hr

end

/-! ## When the source is kept -/

/-- The fallback of the move. -/
def copyAcross (src dst : Str) : FsM Unit := do
  let srcF ← failing "sftp open src" (call (openFile src))
  deferring (call (closeFile srcF)) do
    let dstF ← failing "sftp open dst" (call (create dst))
    deferring (call (closeFile dstF)) do
      failing "sftp copy" (call (copyFile dstF srcF))
      failing "sftp remove src" (call (remove src))

theorem sftpMove_eq (s : SftpFs) (srcParts dstParts : List Str) :
    s.moveUploadedFile srcParts dstParts =
      Prog.attempt (call (rename (s.remoteJoin srcParts) (s.remoteJoin dstParts))) >>= fun
        | .ok _ => pure ()
        | .error _ => copyAcross (s.remoteJoin srcParts) (s.remoteJoin dstParts) :=
  rfl

/-- The target is a file at the source or beneath it: the source itself, or one with something
to lose. -/
def Swallowed (t : FS) (src dst : Loc) : Prop :=
  src <+: dst ∧ ∃ content, t.look dst = some (.file content) ∧ (src = dst ∨ content ≠ [])

section

variable {t t₁ t₂ : FS} {src dst : Loc} {i j : Nat}

/-- Opening the target for writing costs the source nothing. -/
theorem Truncated.wholeAt (h : Truncated dst i t t₁) (hsafe : ¬ Swallowed t src dst) :
    WholeAt t src t₁ src := by
  intro a entry hlook
  by_cases ha : src ++ a = dst
  · rw [ha] at hlook ⊢
    cases entry with
    | dir => exact absurd (FS.look_eq_dir.mp hlook) h.was
    | file content =>
      have hempty : content = [] := by
        by_contra hne
        exact hsafe ⟨⟨a, ha⟩, content, hlook, Or.inr hne⟩
      rw [look_file h.node, h.empty, hempty]
  · rw [(h.others _ ha).look, hlook]

theorem Truncated.others_write (h : Truncated dst i t t₁) (content : Str) {k : Loc} (hk : k ≠ dst) :
    SameAt k t (t₁.write i content) :=
  (h.others k hk).trans (sameAt_write fun hfile => hk (t₁.single k dst i hfile h.node))

end

/-- The source is whole in one of the two places, and at the target if there is no error. -/
def Carried (src dst : Loc) (t : FS) : Except Error Unit → FS → Prop :=
  Post (fun _ t' => WholeAt t src t' dst) fun t' => WholeAt t src t' src ∨ WholeAt t src t' dst

section

variable {t : FS} {srcF dstF : Str}

/-- Without a source the fallback does nothing. -/
theorem copyAcross_missing (h : t.node (locate srcF) = none) :
    Remotely (Post (fun _ _ => False) fun t' => t' = t) (copyAcross srcF dstF) t := by
  refine remotely_seq (remotely_failing (remotely_call (remotely_openFile (fun n hn => ?_) rfl)))
  rw [h] at hn
  cases hn

/-- The source is removed last, when the target is a copy of it. -/
theorem remotely_removeSource {t₂ : FS} {dst : Loc} (hne : locate srcF ≠ dst)
    {content : Str} (hcopied : t₂.look dst = some (.file content)) :
    Remotely (Post (fun _ t' => t'.look dst = some (.file content))
      fun t' => t'.look dst = some (.file content)) (remove srcF) t₂ := by
  have hstays : ∀ hp, (t₂.prune (· = locate srcF) hp).look dst = some (.file content) := by
    intro hp
    rw [(sameAt_prune (by simpa using Ne.symm hne)).look, hcopied]
  exact remotely_remove hstays hstays hcopied

theorem copyAcross_keeps (hsafe : ¬ Swallowed t (locate srcF) (locate dstF)) :
    Remotely (Carried (locate srcF) (locate dstF) t) (copyAcross srcF dstF) t := by
  have hsame : WholeAt t (locate srcF) t (locate srcF) := fun _ _ h => h
  refine remotely_seq (remotely_failing (remotely_call
    (remotely_openFile (fun n hn => ?_) (Or.inl hsame))))
  refine remotely_closing (remotely_seq (remotely_failing (remotely_call (remotely_create
    (fun i t₁ htrunc => ?_) (fun i t₁ htrunc => Or.inl (htrunc.wholeAt hsafe)) (Or.inl hsame)))))
  have hother : ∀ j, n = .file j → locate srcF ≠ locate dstF := by
    rintro j rfl heq
    exact hsafe ⟨heq ▸ List.prefix_rfl, t.data j, by rw [← heq, look_file hn], Or.inl heq⟩
  refine remotely_closing (remotely_seq (remotely_failing (remotely_call
    (remotely_copyFile rfl htrunc.empty (fun j hj => ?_) (fun j content hj => ?_)
      fun _ => Or.inl (htrunc.wholeAt hsafe)))))
  · obtain rfl : n = .file j := hj
    have hne := hother j rfl
    have hcopied : (t₁.write i (t₁.data j)).look (locate dstF) = some (.file (t.data j)) := by
      rw [look_write_self htrunc.node, (htrunc.others _ hne).2 j hn]
    refine remotely_failing (remotely_call (Prog.wp_mono (fun r t' hr => ?_)
      (remotely_removeSource hne hcopied)))
    cases r with
    | ok _ => exact (wholeAt_file_iff hn).mpr hr
    | error e => exact Or.inr ((wholeAt_file_iff hn).mpr hr)
  · obtain rfl : n = .file j := hj
    refine Or.inl ((wholeAt_file_iff hn).mpr ?_)
    rw [(htrunc.others_write content (hother j rfl)).look, look_file hn]

/-- After a rename whose reply was lost there is no source any more. -/
theorem node_renamed_src {src dst : Loc} {hm : t.Movable src dst} (hsrc : t.node src ≠ none)
    (hdst : t.node dst ≠ some .dir) : (t.rename src dst hm).node src = none := by
  have hbeneath : ¬ dst <+: src := by
    intro hpre
    by_cases heq : src = dst
    · exact hm.not_beneath (heq ▸ List.prefix_rfl)
    · exact hsrc (FS.node_beneath hdst hpre heq)
  simp [FS.rename, FS.movedNode, hbeneath]

theorem sftpMove_keeps (s : SftpFs) {srcParts dstParts : List Str}
    (hsafe : ¬ Swallowed t (locate (s.remoteJoin srcParts)) (locate (s.remoteJoin dstParts))) :
    Remotely (Carried (locate (s.remoteJoin srcParts)) (locate (s.remoteJoin dstParts)) t)
      (s.moveUploadedFile srcParts dstParts) t := by
  rw [sftpMove_eq]
  generalize s.remoteJoin srcParts = srcF at hsafe ⊢
  generalize s.remoteJoin dstParts = dstF at hsafe ⊢
  have hrename : Remotely (Post
      (fun _ t' => WholeAt t (locate srcF) t' (locate dstF))
      fun t' => t' = t ∨ (t'.node (locate srcF) = none ∧ WholeAt t (locate srcF) t' (locate dstF)))
      (rename srcF dstF) t := by
    refine remotely_one fun choice r t' effects hexec => ?_
    rcases t.renamePath_cases choice srcF dstF with ⟨e, heq⟩ | ⟨hsame, heq⟩ | ⟨hm, hdst, heq⟩ <;>
      cases heq.symm.trans hexec
    · exact ⟨Or.inl rfl, fun _ => Or.inl rfl⟩
    · exact ⟨fun _ _ h => hsame ▸ h, fun _ => Or.inl rfl⟩
    · have hwhole : WholeAt t (locate srcF) (t.rename _ _ hm) (locate dstF) := by
        intro a entry hlook
        rw [FS.look_rename_beneath, hlook]
      exact ⟨hwhole, fun _ => Or.inr ⟨node_renamed_src (renamePath_ok heq) hdst, hwhole⟩⟩
  refine Prog.wp_remote_bindE (M := os) heard (Prog.wp_remote_attempt (M := os) heard
    (Prog.wp_mono (fun r t' hr => ?_) (remotely_call hrename)))
  cases r with
  | ok _ => exact hr
  | error e =>
    rcases hr with rfl | ⟨hgone, hwhole⟩
    · exact copyAcross_keeps hsafe
    · refine Prog.wp_mono (fun r t'' hr => ?_) (copyAcross_missing hgone)
      cases r with
      | ok _ => exact hr.elim
      | error e =>
        obtain rfl := hr
        exact Or.inr hwhole

end

/-! ## When it is lost -/

section

variable {α : Type} {t : FS}

theorem can_call {p : OsM α} {Q : Except Error α → FS → Prop}
    (h : Prog.Can (fun r t' => Q (r.mapError .errno) t') p.run t) :
    Prog.Can Q (call p).run t :=
  Prog.can_bind (Prog.can_mono (fun _ _ hr => hr) h)

theorem can_failing {p : FsM α} {message : String} {Q : Except Error α → FS → Prop}
    (h : Prog.Can (fun r t' => Q (r.mapError (.wrapped (str message))) t') p.run t) :
    Prog.Can Q (failing message p).run t :=
  Prog.can_bind (Prog.can_mono (fun _ _ hr => hr) h)

theorem can_closing {h : Handle} {body : FsM Unit} {Q : Except Error Unit → FS → Prop}
    (hbody : Prog.Can Q body.run t) : Prog.Can Q (deferring (call (closeFile h)) body).run t := by
  refine Prog.can_bindE (Prog.can_attempt (Prog.can_mono (fun result t' hr => ?_) hbody))
  refine Prog.can_bindE ⟨.smooth [], ?_⟩
  cases result <;> exact hr

/-- A file that was emptied is copied onto itself. -/
theorem copyFile_emptied {i : Nat} (name name' : Str) :
    (t.write i []).copyFile (.smooth []) ⟨.file i, name⟩ ⟨.file i, name'⟩ =
      (.ok (), t.write i [], (t.places i).map .written) := by
  have hempty : (t.write i []).data i = [] := by simp [FS.write]
  rcases writeAt_file (t.write i []) (.smooth []) (h := ⟨.file i, name⟩) rfl 0
    ((t.write i []).data i) with ⟨e, steps, hfault, _⟩ | ⟨_, heq⟩
  · cases hfault
  · rw [write_truncated] at heq
    refine heq.trans ?_
    rw [hempty]
    rfl

/-- The rename fails, and the fallback gets as far as the copy. -/
theorem can_copy (s : SftpFs) {srcParts dstParts : List Str} {Q : Except Error Unit → FS → Prop}
    {n : Node} {i : Nat} (hn : t.node (locate (s.remoteJoin srcParts)) = some n)
    (hi : t.node (locate (s.remoteJoin dstParts)) = some (.file i))
    (hcopy : Prog.Can Q (do
      failing "sftp copy" (call (copyFile ⟨.file i, s.remoteJoin dstParts⟩
        ⟨n, s.remoteJoin srcParts⟩))
      failing "sftp remove src" (call (remove (s.remoteJoin srcParts))) : FsM Unit).run
      (t.write i [])) :
    Prog.Can Q (s.moveUploadedFile srcParts dstParts).run t := by
  rw [sftpMove_eq]
  generalize s.remoteJoin srcParts = srcF at hn hcopy ⊢
  generalize s.remoteJoin dstParts = dstF at hi hcopy ⊢
  have hrename : t.renamePath ⟨some (0, .exist), [], []⟩ srcF dstF = (.error .exist, t, []) := rfl
  refine Prog.can_bindE (Prog.can_attempt (can_call (Prog.can_call (M := os)
    (c := .rename srcF dstF) ⟨some (0, .exist), [], []⟩ hrename ?_)))
  refine Prog.can_bindE (can_failing (can_call (Prog.can_call (M := os) (c := .openFile srcF)
    (.smooth []) (openFile_of_node hn []) ?_)))
  refine can_closing (Prog.can_bindE (can_failing (can_call (Prog.can_call (M := os)
    (c := .create dstF) (.smooth []) (create_of_file hi []) ?_))))
  exact can_closing hcopy

theorem sftpMove_loses (s : SftpFs) {srcParts dstParts : List Str}
    (h : Swallowed t (locate (s.remoteJoin srcParts)) (locate (s.remoteJoin dstParts))) :
    Prog.Can (fun r t' => ¬ Carried (locate (s.remoteJoin srcParts))
        (locate (s.remoteJoin dstParts)) t r t')
      (s.moveUploadedFile srcParts dstParts).run t := by
  obtain ⟨hpre, content, hlook, hcase⟩ := h
  obtain ⟨i, hi, rfl⟩ := FS.look_eq_file.mp hlook
  by_cases hsame : locate (s.remoteJoin srcParts) = locate (s.remoteJoin dstParts)
  · -- the file is emptied, the copy has nothing to copy, and the removal takes the file away
    have hsrc : t.node (locate (s.remoteJoin srcParts)) = some (.file i) := hsame ▸ hi
    obtain ⟨hp, hremove⟩ :=
      remove_file (t := t.write i []) hsrc (show (Choice.smooth []).fault = none from rfl)
    refine can_copy s hsrc hi (Prog.can_bindE (can_failing (can_call (Prog.can_call (M := os)
      (c := .copyFile ⟨.file i, s.remoteJoin dstParts⟩ ⟨.file i, s.remoteJoin srcParts⟩)
      (.smooth []) (copyFile_emptied (s.remoteJoin dstParts) (s.remoteJoin srcParts)) ?_))))
    refine can_failing (can_call (Prog.can_call (M := os) (c := .remove (s.remoteJoin srcParts))
      (.smooth []) hremove fun hkept => ?_))
    have hthere := (wholeAt_file_iff hsrc).mp hkept
    rw [← hsame, FS.look_eq_none.mpr (by simp [FS.prune])] at hthere
    cases hthere
  · -- the directory cannot be copied, and a file in it has been emptied
    have hdir : t.node (locate (s.remoteJoin srcParts)) = some .dir := by
      by_contra hnot
      rw [FS.node_beneath hnot hpre (Ne.symm hsame)] at hi
      cases hi
    have hcopy : (t.write i []).copyFile (.smooth []) ⟨.file i, s.remoteJoin dstParts⟩
        ⟨.dir, s.remoteJoin srcParts⟩ = (.error .isdir, t.write i [], []) := rfl
    refine can_copy s hdir hi (Prog.can_bindE (can_failing (can_call (Prog.can_call (M := os)
      (c := .copyFile ⟨.file i, s.remoteJoin dstParts⟩ ⟨.dir, s.remoteJoin srcParts⟩)
      (.smooth []) hcopy ?_))))
    obtain ⟨a, ha⟩ := hpre
    have hnow := look_write_self hi []
    rintro (hkept | hkept)
    · have hthere := hkept a _ (ha ▸ hlook)
      rw [ha, hnow] at hthere
      simp only [Option.some.injEq, Entry.file.injEq] at hthere
      exact hcase.elim hsame fun hne => hne hthere.symm
    · have hthere := hkept [] .dir (by rw [List.append_nil, FS.look_dir hdir])
      rw [List.append_nil, hnow] at hthere
      cases hthere

end

/-- Whatever the server and the line do, the move does not lose what is at the source. -/
def AlwaysCarried (s : SftpFs) (srcParts dstParts : List Str) (t : FS) : Prop :=
  ∀ choices : Nat → Choice × Option Errno,
    let src := locate (s.remoteJoin srcParts)
    let dst := locate (s.remoteJoin dstParts)
    let ran := Prog.run (M := sftp) ((s.moveUploadedFile srcParts dstParts).run.remote heard)
      choices t
    (WholeAt t src ran.state src ∨ WholeAt t src ran.state dst) ∧
      (ran.value = .ok () → WholeAt t src ran.state dst)

theorem carried_iff {src dst : Loc} {t t' : FS} {result : Except Error Unit} :
    Carried src dst t result t' ↔ (WholeAt t src t' src ∨ WholeAt t src t' dst) ∧
      (result = .ok () → WholeAt t src t' dst) := by
  cases result with
  | ok _ => exact ⟨fun h => ⟨Or.inr h, fun _ => h⟩, fun h => h.2 rfl⟩
  | error e => exact ⟨fun h => ⟨h, nofun⟩, fun h => h.1⟩

/-- **A move on the server can lose its file.** The move keeps what is at the source, whatever
fails and whatever reply is lost, just if the source is not swallowed. -/
theorem sftp_move_keeps_iff (s : SftpFs) (srcParts dstParts : List Str) (t : FS) :
    AlwaysCarried s srcParts dstParts t ↔
      ¬ Swallowed t (locate (s.remoteJoin srcParts)) (locate (s.remoteJoin dstParts)) := by
  constructor
  · intro h hswallowed
    obtain ⟨choices, hlost⟩ := Prog.run_of_can (sftpMove_loses s hswallowed)
    obtain ⟨hvalue, hstate⟩ := Prog.run_remote (M := os) heard (l := none)
      (fun _ _ => rfl) (s.moveUploadedFile srcParts dstParts).run choices t
    refine hlost ?_
    rw [← hvalue, ← hstate]
    exact carried_iff.mpr (h fun n => (choices n, none))
  · intro hsafe choices
    exact carried_iff.mp (Prog.run_of_wp (sftpMove_keeps s hsafe) choices).2

/-- A server with the file `/srv/f`. -/
def oneRemote : FS :=
  (runCalls ⟨str "/srv"⟩ [(.atomicWrite (str "/f") oneByte, fun _ => .smooth (str "1"))]
    FS.empty).1

/-- The file is moved onto itself on a server that refuses to rename onto what is there. All
else goes well, there is no error, and the file is gone. -/
theorem sftp_move_removes_file :
    let s : SftpFs := ⟨str "/srv"⟩
    let src := locate (s.remoteJoin [str "f"])
    let choices : Nat → Choice × Option Errno
      | 0 => (⟨some (0, .exist), [], []⟩, none)
      | _ => (.smooth [], none)
    let ran := Prog.run (M := sftp) ((s.moveUploadedFile [str "f"] [str "f"]).run.remote heard)
      choices oneRemote
    oneRemote.look src = some (.file (str "x")) ∧ ran.value = .ok () ∧
      ran.state.look src = none ∧ ¬ AlwaysCarried s [str "f"] [str "f"] oneRemote := by
  intro s src choices ran
  have hlook : oneRemote.look src = some (.file (str "x")) := by decide +kernel
  have hvalue : ran.value = .ok () := by decide +kernel
  have hgone : ran.state.look src = none := by decide +kernel
  refine ⟨hlook, hvalue, hgone, fun hkept => ?_⟩
  have hthere := (hkept choices).2 hvalue [] (.file (str "x")) (by rw [List.append_nil, hlook])
  rw [List.append_nil] at hthere
  cases hgone.symm.trans hthere

end FileEngine.Filesystem
