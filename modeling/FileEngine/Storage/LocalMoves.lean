import FileEngine.Fs.LocalFs
import FileEngine.Os.Files
import FileEngine.Storage.Local

/-!
# Moves that fail

`LocalStorage.Move` and `LocalFs.MoveUploadedFile` rename, and copy if the rename fails
for whatever reason. The copy opens the target for writing, which truncates it, before
anything has been read. So a move that fails can have destroyed the target: always if
the source is a directory, and otherwise if the copy does not come to its end.

`moveWith` is what the two moves have in common; `moveWith_keeps` and `moveWith_spoils`
say when it keeps the files of a tree and when it can lose one.
-/

namespace FileEngine.Local

open Go Os Fs

/-- The target holds a complete copy of the source. -/
def Copied (src dst : Loc) (t t' : FS) : Prop :=
  ∃ content, t.look src = some (.file content) ∧ t'.look dst = some (.file content)

/-- Every file is as before, and so is what was at the target, unless the target holds a
complete copy of the source. -/
structure Intact (src dst : Loc) (t t' : FS) : Prop where
  files : ∀ l content, t.look l = some (.file content) →
    t'.look l = some (.file content) ∨ (l = dst ∧ Copied src dst t t')
  target : ∀ entry, t.look dst = some entry →
    t'.look dst = some entry ∨ Copied src dst t t'

/-- Whatever the environment does, a program that fails leaves the tree intact. -/
def AlwaysIntact (src dst : Loc) (t : FS) (prog : OsM Unit) : Prop :=
  ∀ choices e, (Prog.run prog.run choices t).value = .error e →
    Intact src dst t (Prog.run prog.run choices t).state

/-- The target is a file that the fallback can spoil: it has something to lose and the
source is a directory or not empty, or it is empty and the content of the source is long
enough to be cut off. -/
def Endangered (t : FS) (src dst : Loc) : Prop :=
  ∃ old, t.look dst = some (.file old) ∧
    ((t.look src = some .dir ∧ old ≠ []) ∨
      ∃ content, t.look src = some (.file content) ∧ content ≠ [] ∧
        (old ≠ [] ∨ 2 ≤ content.length))

theorem Endangered.dst_file {t : FS} {src dst : Loc} (h : Endangered t src dst) :
    ∃ i, t.node dst = some (.file i) := by
  obtain ⟨old, hold, _⟩ := h
  obtain ⟨i, hi, _⟩ := FS.look_eq_file.mp hold
  exact ⟨i, hi⟩

theorem Endangered.src_node {t : FS} {src dst : Loc} (h : Endangered t src dst) :
    ∃ n, t.node src = some n := by
  obtain ⟨old, _, ⟨hdir, _⟩ | ⟨c, hc, _⟩⟩ := h
  · exact ⟨_, FS.look_eq_dir.mp hdir⟩
  · obtain ⟨j, hj, _⟩ := FS.look_eq_file.mp hc
    exact ⟨_, hj⟩

/-- The copy of the two moves, and what comes after it. -/
def fallback (srcF dstF : Str) (finish : Handle → Handle → Except Errno Unit → OsM Unit) :
    OsM Unit := do
  let input ← openFile srcF
  let out ← create dstF
  let copied ← Prog.attempt (copyFile out input)
  finish input out copied

def moveWith (srcF dstF : Str) (finish : Handle → Handle → Except Errno Unit → OsM Unit) :
    OsM Unit := do
  mkdirAll (dir dstF)
  match ← Prog.attempt (rename srcF dstF) with
  | .ok _ => return
  | .error _ => fallback srcF dstF finish

/-- How `Move` goes on after the copy. -/
def finishMove (srcF : Str) (_input out : Handle) : Except Errno Unit → OsM Unit
  | .error e => do
      closeFile out
      throw e
  | .ok _ => do
      closeFile out
      remove srcF

/-- How `MoveUploadedFile` goes on after the copy. -/
def finishUpload (srcF : Str) (input out : Handle) : Except Errno Unit → OsM Unit
  | .error e => do
      closeFile out
      closeFile input
      throw e
  | .ok _ => do
      let removed ← Prog.attempt (remove srcF)
      closeFile out
      closeFile input
      match removed with
      | .error e => throw e
      | .ok _ => return

theorem move_eq (s : LocalStorage) (src dst : Str) :
    s.move src dst = moveWith (s.full src) (s.full dst) (finishMove (s.full src)) := rfl

theorem moveUploadedFile_eq {l : LocalFs} {src dst : List Str}
    (hsrc : l.sanitizeAndJoin src = .ok (l.full src))
    (hdst : l.sanitizeAndJoin dst = .ok (l.full dst)) :
    l.moveUploadedFile src dst =
      moveWith (l.full src) (l.full dst) (finishUpload (l.full src)) := by
  unfold LocalFs.moveUploadedFile LocalFs.resolveParts
  rw [hsrc, hdst]
  rfl

/-! ## What the fallback does to the tree -/

section

variable {src dst : Loc} {t t₁ t' : FS}

/-- Only the target was written to, and what was there is no loss. -/
theorem intact_of_others (hdirs : AddsDirs dst.dropLast t t₁)
    (hothers : ∀ l, l ≠ dst → SameAt l t₁ t')
    (hdst : t.look dst = none ∨ t'.look dst = t.look dst ∨ Copied src dst t t') :
    Intact src dst t t' := by
  have htarget : ∀ entry, t.look dst = some entry →
      t'.look dst = some entry ∨ Copied src dst t t' := by
    intro entry hentry
    rcases hdst with hnone | hsame | hcopied
    · rw [hnone] at hentry
      cases hentry
    · exact Or.inl (hsame.trans hentry)
    · exact Or.inr hcopied
  refine ⟨fun l content hl => ?_, htarget⟩
  by_cases hld : l = dst
  · subst hld
    exact (htarget _ hl).imp_right fun hcopied => ⟨rfl, hcopied⟩
  · exact Or.inl ((hothers l hld).look.trans (hdirs.look_some hl))

theorem intact_of_dirs (hdirs : AddsDirs dst.dropLast t t₁) : Intact src dst t t₁ :=
  intact_of_others hdirs (fun l _ => .refl l t₁) (Or.inr (Or.inl hdirs.look_end))

/-- A part of the source that a target out of danger can hold: nothing, where nothing
was, or all of it. -/
theorem part_of_safe {old content : Str} (hsafe : ¬ Endangered t src dst)
    (hdst : t.look dst = some (.file old)) (hsrc : t.look src = some (.file content))
    (steps : Nat) : content.take steps = old ∨ content.take steps = content := by
  have hshort : content = [] ∨ (old = [] ∧ content.length < 2) := by
    by_contra hnot
    push Not at hnot
    refine hsafe ⟨old, hdst, Or.inr ⟨content, hsrc, hnot.1, ?_⟩⟩
    by_cases hold : old = []
    · exact Or.inr (hnot.2 hold)
    · exact Or.inl hold
  rcases hshort with rfl | ⟨rfl, hlen⟩
  · exact Or.inr (List.take_nil)
  · cases steps with
    | zero => exact Or.inl rfl
    | succ steps => exact Or.inr (List.take_of_length_le (by omega))

/-- The target was there: what the truncation and the copy leave. -/
theorem intact_of_truncated {i : Nat} {content : Str} (hdirs : AddsDirs dst.dropLast t t₁)
    (hi : t₁.node dst = some (.file i)) (hsafe : ¬ Endangered t src dst)
    (hcontent : (t₁.node src = some .dir ∧ content = []) ∨ ∃ j steps,
      t₁.node src = some (.file j) ∧ content = ((t₁.write i []).data j).take steps) :
    Intact src dst t (t₁.write i content) := by
  have hold : t.node dst ≠ none := by
    rw [← (hdirs.sameAt_file hi).1, hi]
    exact Option.some_ne_none _
  have hall : ∀ l, t₁.look l = t.look l := fun l => (hdirs.sameAt hold l).look
  have hlook : t.look dst = some (.file (t₁.data i)) := by rw [← hall, look_file hi]
  have hnew := look_write_self hi content
  refine intact_of_others hdirs (fun l hl => ?_) (Or.inr ?_)
  · exact sameAt_write fun hl' => hl (t₁.single l dst i hl' hi)
  · rcases hcontent with ⟨hdir, rfl⟩ | ⟨j, steps, hj, rfl⟩
    · have hempty : t₁.data i = [] := by
        by_contra hne
        refine hsafe ⟨_, hlook, Or.inl ⟨?_, hne⟩⟩
        rw [← hall, FS.look_dir hdir]
      exact Or.inl (by rw [hnew, hlook, hempty])
    · have hsrc : t.look src = some (.file (t₁.data j)) := by rw [← hall, look_file hj]
      -- a file that is moved onto itself has nothing left to be read
      have hpart : ∃ k, ((t₁.write i []).data j).take steps = (t₁.data j).take k := by
        by_cases hji : j = i
        · exact ⟨0, by simp [FS.write, hji]⟩
        · exact ⟨steps, by simp [FS.write, hji]⟩
      obtain ⟨k, hk⟩ := hpart
      rcases part_of_safe hsafe hlook hsrc k with he | he
      · exact Or.inl (by rw [hnew, hk, he, hlook])
      · exact Or.inr ⟨_, hsrc, by rw [hnew, hk, he]⟩

end

/-! ## When nothing is lost -/

section

variable {srcF dstF : Str} {finish : Handle → Handle → Except Errno Unit → OsM Unit} {t : FS}

/-- What comes after the copy changes nothing if it fails. -/
def FailsClean (finish : Handle → Handle → Except Errno Unit → OsM Unit) : Prop :=
  ∀ input out copied t, Prog.Wp AnyEffect (fun r t' => ∀ e, r = .error e → t' = t)
    (finish input out copied).run t

theorem FailsClean.intact (hfinish : FailsClean finish) {src dst : Loc} {t' : FS}
    (h : Intact src dst t t') (input out : Handle) (copied : Except Errno Unit) :
    Prog.Wp AnyEffect (fun r t'' => ∀ e, r = .error e → Intact src dst t t'')
      (finish input out copied).run t' := by
  refine Prog.wp_mono (fun r t'' hr e he => ?_) (hfinish input out copied t')
  rw [hr e he]
  exact h

theorem fallback_intact {t₁ : FS} (hfinish : FailsClean finish)
    (hdirs : AddsDirs (locate dstF).dropLast t t₁)
    (hsafe : ¬ Endangered t (locate srcF) (locate dstF)) :
    Prog.Wp AnyEffect (fun r t' => ∀ e, r = .error e → Intact (locate srcF) (locate dstF) t t')
      (fallback srcF dstF finish).run t₁ := by
  have hkept : Intact (locate srcF) (locate dstF) t t₁ := intact_of_dirs hdirs
  refine Prog.wp_bindE (Prog.wp_call fun choice opened t₂ effects hopen => ⟨fun _ _ => trivial, ?_⟩)
  rcases t₁.openFile_cases choice srcF with ⟨e, heq⟩ | ⟨n, hn, heq⟩
  · cases heq.symm.trans hopen
    exact fun _ _ => hkept
  cases heq.symm.trans hopen
  refine Prog.wp_bindE (Prog.wp_call fun choice out t₂ effects hcreate => ⟨fun _ _ => trivial, ?_⟩)
  rcases t₁.create_cases choice dstF with ⟨e, heq⟩ | ⟨i, hi, heq⟩ | ⟨hv, heq⟩
  · cases heq.symm.trans hcreate
    exact fun _ _ => hkept
  · cases heq.symm.trans hcreate
    refine Prog.wp_bindE (Prog.wp_attempt (Prog.wp_call
      fun choice copied t₃ effects hcopy => ⟨fun _ _ => trivial, ?_⟩))
    have hout : (⟨.file i, dstF⟩ : Handle).node = .file i := rfl
    rcases copyFile_truncated (t := t₁) hout choice ⟨n, srcF⟩ with
      ⟨e, hdir, heq⟩ | ⟨j, steps, r, hj, heq⟩
    · cases heq.symm.trans hcopy
      exact hfinish.intact (intact_of_truncated hdirs hi hsafe (Or.inl ⟨hdir ▸ hn, rfl⟩)) _ _ _
    · cases heq.symm.trans hcopy
      exact hfinish.intact
        (intact_of_truncated hdirs hi hsafe (Or.inr ⟨j, steps, hj ▸ hn, rfl⟩)) _ _ _
  · cases heq.symm.trans hcreate
    -- a new file: whatever is written to it, nothing else is concerned
    have hnone : t.look (locate dstF) = none :=
      FS.look_eq_none.mpr (hdirs.node_none hv.new)
    have hothers : ∀ l, l ≠ locate dstF → SameAt l t₁ (t₁.insert (locate dstF) false hv) :=
      fun l hl => sameAt_insert hl
    refine Prog.wp_bindE (Prog.wp_attempt (Prog.wp_call
      fun choice copied t₃ effects hcopy => ⟨fun _ _ => trivial, ?_⟩))
    rcases FS.copyFile_cases _ choice ⟨.file t₁.next, dstF⟩ ⟨n, srcF⟩ with
      ⟨e, heq⟩ | ⟨i, r, content, hi, heq⟩
    · cases heq.symm.trans hcopy
      exact hfinish.intact (intact_of_others hdirs hothers (Or.inl hnone)) _ _ _
    · cases heq.symm.trans hcopy
      cases hi
      refine hfinish.intact (intact_of_others hdirs (fun l hl => ?_) (Or.inl hnone)) _ _ _
      exact sameAt_insert_write hl

/-- If the target is not in danger, then a failed move loses nothing. -/
theorem moveWith_keeps (hdir : locate (dir dstF) = (locate dstF).dropLast)
    (hfinish : FailsClean finish) (hsafe : ¬ Endangered t (locate srcF) (locate dstF)) :
    AlwaysIntact (locate srcF) (locate dstF) t (moveWith srcF dstF finish) := by
  have hwp : Prog.Wp AnyEffect
      (fun r t' => ∀ e, r = .error e → Intact (locate srcF) (locate dstF) t t')
      (moveWith srcF dstF finish).run t := by
    refine Prog.wp_bindE (Prog.wp_call fun choice made t₁ effects hmade => ⟨fun _ _ => trivial, ?_⟩)
    have hdirs : AddsDirs (locate dstF).dropLast t t₁ := by
      have hall := addsDirs_mkdirAll t choice (dir dstF)
      rw [hdir] at hall
      have hexec : t.mkdirAll choice (dir dstF) = (made, t₁, effects) := hmade
      rwa [hexec] at hall
    cases made with
    | error e => exact fun _ _ => intact_of_dirs hdirs
    | ok _ =>
      refine Prog.wp_bindE (Prog.wp_attempt (Prog.wp_call
        fun choice renamed t₂ effects hrenamed => ⟨fun _ _ => trivial, ?_⟩))
      rcases t₁.renamePath_cases choice srcF dstF with ⟨e, heq⟩ | ⟨_, heq⟩ | ⟨_, _, heq⟩
      · cases heq.symm.trans hrenamed
        exact fallback_intact hfinish hdirs hsafe
      · cases heq.symm.trans hrenamed
        exact nofun
      · cases heq.symm.trans hrenamed
        exact nofun
  intro choices e he
  exact (Prog.run_of_wp hwp choices).2 e he

/-! ## When a file can be lost -/

/-- After a failed copy the program can end in an error at once. -/
def CanFail (finish : Handle → Handle → Except Errno Unit → OsM Unit) : Prop :=
  ∀ input out e t, Prog.Can (fun r t' => (∃ e', r = .error e') ∧ t' = t)
    (finish input out (.error e)).run t

theorem not_intact_of_content {src dst : Loc} {i : Nat} {content : Str}
    (hi : t.node dst = some (.file i)) (hold : t.data i ≠ content)
    (hsrc : t.look src ≠ some (.file content)) : ¬ Intact src dst t (t.write i content) := by
  intro h
  have hnew := look_write_self hi content
  rcases h.target _ (look_file hi) with hsame | ⟨c, hc, hcopied⟩
  · rw [hnew] at hsame
    cases hsame
    exact hold rfl
  · rw [hnew] at hcopied
    cases hcopied
    exact hsrc hc

/-- What a copy that fails can leave of a target in danger: neither what it was nor a
copy of the source. -/
theorem copyFile_spoils (srcF dstF : Str) {src dst : Loc} {i : Nat} {n : Node}
    (hi : t.node dst = some (.file i)) (hn : t.node src = some n) (hdanger : Endangered t src dst) :
    ∃ choice e content effects, (t.write i []).copyFile choice ⟨.file i, dstF⟩ ⟨n, srcF⟩ =
        (.error e, t.write i content, effects) ∧
      ¬ Intact src dst t (t.write i content) := by
  obtain ⟨old, hold, hcase⟩ := hdanger
  rw [look_file hi] at hold
  cases hold
  cases n with
  | dir =>
    have hdir : t.look src = some .dir := FS.look_dir hn
    rcases hcase with ⟨_, hne⟩ | ⟨c, hc, _⟩
    · refine ⟨.smooth [], .isdir, [], [], ?_, not_intact_of_content hi hne (by simp [hdir])⟩
      simp [FS.copyFile]
    · rw [hdir] at hc
      cases hc
  | file j =>
    have hfile := look_file hn
    rcases hcase with ⟨hdir, _⟩ | ⟨c, hc, hne, hlong⟩
    · rw [hfile] at hdir
      cases hdir
    · rw [hfile] at hc
      cases hc
      -- cut off the copy at once, or after a byte if the target is empty
      by_cases hold : t.data i = []
      · have hji : j ≠ i := by
          rintro rfl
          exact hne hold
        have hlen : 2 ≤ (t.data j).length := hlong.resolve_left fun h => h hold
        have hcut : ((t.data j).take 1).length = 1 := by
          rw [List.length_take]
          omega
        refine ⟨⟨some (1, .busy), [], []⟩, .busy, (t.data j).take 1, _,
          copyFile_cut rfl rfl (by simp [FS.write, hji]), not_intact_of_content hi ?_ ?_⟩
        · rw [hold]
          exact fun h => by simp [← h] at hcut
        · rw [hfile]
          intro h
          simp only [Option.some.injEq, Entry.file.injEq] at h
          rw [← h] at hcut
          omega
      · refine ⟨⟨some (0, .busy), [], []⟩, .busy, [], _,
          copyFile_cut rfl rfl rfl, not_intact_of_content hi hold ?_⟩
        rw [hfile]
        simpa using hne

theorem fallback_spoils (hfinish : CanFail finish)
    (hdanger : Endangered t (locate srcF) (locate dstF)) :
    Prog.Can (fun r t' => (∃ e, r = .error e) ∧ ¬ Intact (locate srcF) (locate dstF) t t')
      (fallback srcF dstF finish).run t := by
  obtain ⟨i, hi⟩ := hdanger.dst_file
  obtain ⟨n, hn⟩ := hdanger.src_node
  obtain ⟨choice, e, content, effects, hcopy, hspoilt⟩ :=
    copyFile_spoils srcF dstF hi hn hdanger
  refine Prog.can_bindE (Prog.can_call (M := os) (c := .openFile srcF) (.smooth [])
    (openFile_of_node hn []) ?_)
  refine Prog.can_bindE (Prog.can_call (M := os) (c := .create dstF) (.smooth [])
    (create_of_file hi []) ?_)
  refine Prog.can_bindE (Prog.can_attempt (Prog.can_call (M := os)
    (c := .copyFile ⟨.file i, dstF⟩ ⟨n, srcF⟩) choice hcopy ?_))
  refine Prog.can_mono (fun r t' hr => ⟨hr.1, ?_⟩) (hfinish _ _ e _)
  rw [hr.2]
  exact hspoilt

/-- If the target is in danger, then some failed move loses it. -/
theorem moveWith_spoils (hdir : locate (dir dstF) = (locate dstF).dropLast)
    (hfinish : CanFail finish) (hdanger : Endangered t (locate srcF) (locate dstF)) :
    ¬ AlwaysIntact (locate srcF) (locate dstF) t (moveWith srcF dstF finish) := by
  have hparent : t.node (locate (dir dstF)) = some .dir := by
    obtain ⟨i, hi⟩ := hdanger.dst_file
    rw [hdir]
    refine t.parent _ (fun hroot => ?_) (by simp [hi])
    rw [hroot, t.root] at hi
    cases hi
  have hcan : Prog.Can
      (fun r t' => (∃ e, r = .error e) ∧ ¬ Intact (locate srcF) (locate dstF) t t')
      (moveWith srcF dstF finish).run t := by
    have hrename : t.renamePath ⟨some (0, .busy), [], []⟩ srcF dstF = (.error .busy, t, []) := rfl
    refine Prog.can_bindE (Prog.can_call (M := os) (c := .mkdirAll (dir dstF)) (.smooth [])
      (mkdirAll_of_dir hparent []) ?_)
    refine Prog.can_bindE (Prog.can_attempt (Prog.can_call (M := os) (c := .rename srcF dstF)
      ⟨some (0, .busy), [], []⟩ hrename ?_))
    exact fallback_spoils hfinish hdanger
  obtain ⟨choices, ⟨e, he⟩, hspoilt⟩ := Prog.run_of_can hcan
  exact fun h => hspoilt (h choices e he)

end

/-! ## The two moves -/

section

variable {t : FS}

theorem can_closeFile {hd : Handle} {Q : Except Errno Unit → FS → Prop} (hQ : Q (.ok ()) t) :
    Prog.Can Q (closeFile hd).run t := ⟨.smooth [], hQ⟩

theorem remove_failsClean (path : Str) : Prog.Wp AnyEffect
    (fun r t' => ∀ e, r = .error e → t' = t) (remove path).run t := by
  refine Prog.wp_call fun choice r t' effects hexec => ⟨fun _ _ => trivial, ?_⟩
  rcases t.remove_cases choice path with ⟨e, heq⟩ | ⟨_, heq⟩
  · cases heq.symm.trans hexec
    exact fun _ _ => rfl
  · cases heq.symm.trans hexec
    exact nofun

end

theorem finishMove_failsClean (srcF : Str) : FailsClean (finishMove srcF) := by
  intro input out copied t
  cases copied with
  | error e => exact Prog.wp_bindE (wp_closeFile fun _ _ => rfl)
  | ok _ => exact Prog.wp_bindE (wp_closeFile (remove_failsClean srcF))

theorem finishMove_canFail (srcF : Str) : CanFail (finishMove srcF) := fun _ _ e _ =>
  Prog.can_bindE (can_closeFile ⟨⟨e, rfl⟩, rfl⟩)

theorem finishUpload_failsClean (srcF : Str) : FailsClean (finishUpload srcF) := by
  intro input out copied t
  cases copied with
  | error e =>
    exact Prog.wp_bindE (wp_closeFile (Prog.wp_bindE (wp_closeFile fun _ _ => rfl)))
  | ok _ =>
    refine Prog.wp_bindE (Prog.wp_attempt (Prog.wp_mono (fun removed t' hr => ?_)
      (remove_failsClean srcF)))
    refine Prog.wp_bindE (wp_closeFile (Prog.wp_bindE (wp_closeFile ?_)))
    cases removed with
    | error e => exact fun _ _ => hr e rfl
    | ok _ => exact nofun

theorem finishUpload_canFail (srcF : Str) : CanFail (finishUpload srcF) := fun _ _ e _ =>
  Prog.can_bindE (can_closeFile (Prog.can_bindE (can_closeFile ⟨⟨e, rfl⟩, rfl⟩)))

/-- The path parts are refused: nothing happens. -/
theorem moveUploadedFile_refused {l : LocalFs} {src dst : List Str} {e : Str}
    (h : l.sanitizeAndJoin src = .error e ∨ l.sanitizeAndJoin dst = .error e)
    (choices : Nat → Choice) (t : FS) :
    (Prog.run (l.moveUploadedFile src dst).run choices t).state = t := by
  unfold LocalFs.moveUploadedFile LocalFs.resolveParts
  rcases h with h | h
  · rw [h]
    rfl
  · rw [h]
    cases l.sanitizeAndJoin src <;> rfl

theorem move_alwaysIntact_iff (s : LocalStorage) (src dst : Str) (t : FS) :
    AlwaysIntact (locate (s.full src)) (locate (s.full dst)) t (s.move src dst) ↔
      ¬ Endangered t (locate (s.full src)) (locate (s.full dst)) := by
  have hdir := locate_dir_join [s.base, clean ([slash] ++ dst)]
  rw [move_eq]
  constructor
  · exact fun h hdanger => moveWith_spoils hdir (finishMove_canFail _) hdanger h
  · exact fun h => moveWith_keeps hdir (finishMove_failsClean _) h

theorem moveUploadedFile_alwaysIntact_iff (l : LocalFs) (src dst : List Str) (t : FS) :
    AlwaysIntact (locate (l.full src)) (locate (l.full dst)) t (l.moveUploadedFile src dst) ↔
      ¬ ((∃ p, l.sanitizeAndJoin src = .ok p) ∧ (∃ p, l.sanitizeAndJoin dst = .ok p) ∧
        Endangered t (locate (l.full src)) (locate (l.full dst))) := by
  have hrefused : ∀ e, (l.sanitizeAndJoin src = .error e ∨ l.sanitizeAndJoin dst = .error e) →
      AlwaysIntact (locate (l.full src)) (locate (l.full dst)) t (l.moveUploadedFile src dst) := by
    intro e he choices _ _
    rw [moveUploadedFile_refused he]
    exact intact_of_dirs (.refl t)
  rcases l.sanitizeAndJoin_cases src with ⟨e, hsrc⟩ | hsrc
  · simpa [hsrc] using hrefused e (Or.inl hsrc)
  rcases l.sanitizeAndJoin_cases dst with ⟨e, hdst⟩ | hdst
  · simpa [hdst] using hrefused e (Or.inr hdst)
  have hdir : locate (dir (l.full dst)) = (locate (l.full dst)).dropLast := locate_dir_join _
  rw [moveUploadedFile_eq hsrc hdst]
  constructor
  · exact fun h hdanger => moveWith_spoils hdir (finishUpload_canFail _) hdanger.2.2 h
  · exact fun h => moveWith_keeps hdir (finishUpload_failsClean _)
      fun hdanger => h ⟨⟨_, hsrc⟩, ⟨_, hdst⟩, hdanger⟩

/-- **A failed move can destroy its target.** A failed `Move` loses no file, whatever the
failures are, just if the target is not endangered; and for a failed `MoveUploadedFile`
the same holds of the paths that are accepted. -/
theorem failedMove_intact_iff (s : LocalStorage) (l : LocalFs) (src dst : Str)
    (srcParts dstParts : List Str) (t : FS) :
    (AlwaysIntact (locate (s.full src)) (locate (s.full dst)) t (s.move src dst) ↔
      ¬ Endangered t (locate (s.full src)) (locate (s.full dst))) ∧
    (AlwaysIntact (locate (l.full srcParts)) (locate (l.full dstParts)) t
        (l.moveUploadedFile srcParts dstParts) ↔
      ¬ ((∃ p, l.sanitizeAndJoin srcParts = .ok p) ∧ (∃ p, l.sanitizeAndJoin dstParts = .ok p) ∧
        Endangered t (locate (l.full srcParts)) (locate (l.full dstParts)))) :=
  ⟨move_alwaysIntact_iff s src dst t, moveUploadedFile_alwaysIntact_iff l srcParts dstParts t⟩

/-- A directory `/srv/d` beside a file `/srv/f`. -/
def dirAndFile : FS :=
  (runCalls ⟨str "/srv"⟩ [(.createFolder (str "/d"), fun _ => .smooth []),
    (.atomicWrite (str "/f") oneByte, fun _ => .smooth (str "1"))] FS.empty).1

/-- The directory is moved onto the file. No call fails but for what the two are, and the
file is emptied. -/
theorem move_dir_empties_file :
    let src := locate (str "/srv/d")
    let dst := locate (str "/srv/f")
    let moved := Prog.run (LocalStorage.move ⟨str "/srv"⟩ (str "/d") (str "/f")).run
      (fun _ => .smooth []) dirAndFile
    let uploaded := Prog.run (LocalFs.moveUploadedFile ⟨str "/srv"⟩ [str "d"] [str "f"]).run
      (fun _ => .smooth []) dirAndFile
    dirAndFile.look src = some .dir ∧ dirAndFile.look dst = some (.file (str "x")) ∧
      moved.value = .error .isdir ∧ moved.state.look dst = some (.file []) ∧
      ¬ Intact src dst dirAndFile moved.state ∧
      uploaded.value = .error .isdir ∧ uploaded.state.look dst = some (.file []) ∧
      ¬ Intact src dst dirAndFile uploaded.state := by
  have hnot : ∀ t' : FS, t'.look (locate (str "/srv/f")) = some (.file []) →
      ¬ Intact (locate (str "/srv/d")) (locate (str "/srv/f")) dirAndFile t' := by
    intro t' hnew h
    rcases h.target (.file (str "x")) (by decide) with hsame | ⟨c, hc, _⟩
    · rw [hnew] at hsame
      exact absurd hsame (by decide)
    · have hdir : dirAndFile.look (locate (str "/srv/d")) = some .dir := by decide
      rw [hdir] at hc
      cases hc
  refine ⟨by decide, by decide, by decide, by decide, hnot _ (by decide), by decide, by decide,
    hnot _ (by decide)⟩

end FileEngine.Local
