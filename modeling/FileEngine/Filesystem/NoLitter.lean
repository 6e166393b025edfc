import FileEngine.Filesystem.AtomicWrites

/-!
# What writes and moves leave

`AtomicWriteFile` and `MoveUploadedFile` in an orderly environment, where every other call
may fail: they keep all files that do not concern them, leave no temporary file, and the
target is what it was or complete (`atomicWriteFile_sound`, `moveUploadedFile_sound`). That
holds unless the temporary file gets the name of a target that is not there.
-/

namespace FileEngine.Filesystem

open Go Os Local

/-! ## What is asked for -/

/-- After a write: the other files are as before, nothing is new but directories and the
target, and the target is as before or holds all that was read, which it does if there is no
error. -/
structure WriteSound (target : Loc) (data : Reader) (result : Except Error Unit) (t t' : FS) :
    Prop where
  others : ∀ k content, k ≠ target → t.look k = some (.file content) →
    t'.look k = some (.file content)
  noLitter : ∀ k, t.node k = none → t'.node k = none ∨ t'.node k = some .dir ∨ k = target
  atTarget : t'.look target = t.look target ∨
    ∃ content, Whole data content ∧ t'.look target = some (.file content)
  done : result = .ok () → ∃ content, Whole data content ∧ t'.look target = some (.file content)

/-- What was at `l` and beneath is at `k` and beneath. -/
def WholeAt (t : FS) (l : Loc) (t' : FS) (k : Loc) : Prop :=
  ∀ a entry, t.look (l ++ a) = some entry → t'.look (k ++ a) = some entry

/-- Beneath a file there is nothing. -/
theorem wholeAt_file_iff {t t' : FS} {l k : Loc} {j : Nat} (hj : t.node l = some (.file j)) :
    WholeAt t l t' k ↔ t'.look k = some (.file (t.data j)) := by
  constructor
  · intro h
    simpa using h [] _ (by rw [List.append_nil, look_file hj])
  · intro h a entry hlook
    by_cases ha : a = []
    · subst ha
      rw [List.append_nil, look_file hj] at hlook
      rw [List.append_nil, h, hlook]
    · have hbeneath : t.node (l ++ a) = none :=
        FS.node_beneath (by simp [hj]) (List.prefix_append _ _) (by simpa using ha)
      rw [FS.look_eq_none.mpr hbeneath] at hlook
      cases hlook

/-- After a move: the files that are neither the target nor at or beneath the source are as
before, nothing is new but directories and what is at or beneath the target, and the target
is as before or holds the whole source. The source is whole in one of the two places, and
at the target if there is no error. -/
structure MoveSound (src dst : Loc) (result : Except Error Unit) (t t' : FS) : Prop where
  others : ∀ k content, k ≠ dst → ¬ src <+: k → t.look k = some (.file content) →
    t'.look k = some (.file content)
  noLitter : ∀ k, t.node k = none → t'.node k = none ∨ t'.node k = some .dir ∨ dst <+: k
  atTarget : t'.look dst = t.look dst ∨ WholeAt t src t' dst
  source : WholeAt t src t' src ∨ WholeAt t src t' dst
  done : result = .ok () → t.look src ≠ none ∧ WholeAt t src t' dst

/-! ## The names that clash -/

/-- The parts denote something beneath the base. -/
def LocalFs.Accepts (l : LocalFs) (parts : List Str) : Prop :=
  ∃ p, l.checkBase (l.full parts) = .ok p

/-- The target is not there, it can be made, and its name is that of the temporary file. -/
def Clash (pre rand : Str) (t : FS) (target : Loc) : Prop :=
  ∃ (parent : Loc) (n : Name), target = parent ++ [n] ∧ n.val = pre ++ rand ∧
    t.node target = none ∧ ¬ Obstructed t parent

/-- A write that comes to its end with a clash. -/
def WriteClashes (l : LocalFs) (rand : Str) (ctxErr : Option Error) (data : Reader)
    (parts : List Str) (t : FS) : Prop :=
  ctxErr = none ∧ parts ≠ [] ∧ l.Accepts parts ∧ (data (32 * 1024)).err = .eof ∧
    Clash (str ".tmp-") rand t (locate (l.full parts))

/-- A move of a file that comes to its end with a clash, if the rename fails. -/
def MoveClashes (l : LocalFs) (rand : Str) (ctxErr : Option Error) (srcParts dstParts : List Str)
    (t : FS) : Prop :=
  ctxErr = none ∧ l.Accepts srcParts ∧ l.Accepts dstParts ∧
    (∃ i, t.node (locate (l.full srcParts)) = some (.file i)) ∧
    Clash (str ".tmpcopy-") rand t (locate (l.full dstParts))

theorem checkBase_ok {l : LocalFs} {full p : Str} (h : l.checkBase full = .ok p) : p = full := by
  unfold LocalFs.checkBase at h
  split at h
  · cases h
  · split_ifs at h
    cases h
    rfl

theorem checkBase_clean {l : LocalFs} {full p : Str} (h : l.checkBase (clean full) = .ok p) :
    ∃ p', l.checkBase full = .ok p' := by
  unfold LocalFs.checkBase at h ⊢
  cases hrel : rel l.baseRoot (clean full) with
  | error e =>
    rw [hrel] at h
    cases h
  | ok r =>
    rw [hrel] at h
    rw [(rel_clean _ _ _).mp hrel]
    dsimp only at h ⊢
    split_ifs at h ⊢
    exact ⟨full, rfl⟩

section

variable {E : os.Call → os.Choice → os.State → Prop} {t : FS}

/-- Whatever `EvalSymlinks` says, the path leads to the same location. -/
theorem under_sanitizeAndJoin {l : LocalFs} {parts : List Str} {done : Str → FS → Prop}
    {failed : FS → Prop}
    (hdone : ∀ p, locate p = locate (l.full parts) →
      locate (dir p) = (locate (l.full parts)).dropLast → l.Accepts parts → done p t)
    (hfailed : failed t) : Prog.Under E (Post done failed) (l.sanitizeAndJoin parts).run t := by
  have heval : Prog.Under E (Post (fun p t' => p = clean (l.full parts) ∧ t' = t) (· = t))
      (call (evalSymlinks (l.full parts))).run t :=
    under_call (under_seq (under_openFile (fun _ _ => ⟨rfl, rfl⟩) rfl))
  refine Prog.under_bindE (Prog.under_attempt (Prog.under_mono (fun r t' hr => ?_) heval))
  cases r with
  | ok p =>
    obtain ⟨rfl, rfl⟩ := hr
    show Post done failed (l.checkBase (clean (l.full parts))) t'
    cases hcheck : l.checkBase (clean (l.full parts)) with
    | error e => exact hfailed
    | ok p =>
      obtain rfl := checkBase_ok hcheck
      refine hdone _ (locate_clean _) ?_ (checkBase_clean hcheck)
      rw [locate_dir_clean, locate_clean]
  | error e =>
    obtain rfl : t' = t := hr
    show Post done failed (l.checkBase (l.full parts)) t'
    cases hcheck : l.checkBase (l.full parts) with
    | error e => exact hfailed
    | ok p =>
      obtain rfl := checkBase_ok hcheck
      exact hdone _ rfl (locate_dir_join _) ⟨_, hcheck⟩

end

/-! ## Writes -/

def writeMessages : Messages :=
  ⟨"create temp file failed", "write temp file failed", "close temp file failed",
    "chmod temp file failed", "atomic rename failed"⟩

theorem atomicWriteFile_eq (l : LocalFs) (data : Reader) {parts : List Str} (h : parts ≠ []) :
    l.atomicWriteFile none data parts = l.sanitizeAndJoin parts >>= fun targetFull =>
      failing "ensure dir failed" (call (mkdirAll (dir targetFull))) >>= fun _ =>
        throughTemp writeMessages (dir targetFull) (str ".tmp-")
          (fun tmp => LocalStorage.ioCopy tmp (data (32 * 1024))) targetFull := by
  unfold LocalFs.atomicWriteFile
  simp only [h, if_false]
  rfl

section

variable {t t₁ t' : FS} {target : Loc}

theorem writeSound_failed {data : Reader} {e : Error} (h : AddsDirs target.dropLast t t') :
    WriteSound target data (.error e) t t' where
  others _ _ _ hk := h.look_some hk
  noLitter _ hk := (h.node_new hk).imp_right Or.inl
  atTarget := Or.inl h.look_end
  done := nofun

theorem writeSound_done {data : Reader} {result : Except Error Unit}
    (hdirs : AddsDirs target.dropLast t t₁) (h : Replaced (Whole data) target t₁ t') :
    WriteSound target data result t t' where
  others k content hk hlook := (h.2 k hk).look.trans (hdirs.look_some hlook)
  noLitter k hk := by
    by_cases hkt : k = target
    · exact Or.inr (Or.inr hkt)
    · rw [(h.2 k hkt).1]
      exact (hdirs.node_new hk).imp_right Or.inl
  atTarget := Or.inr h.1
  done _ := h.1

end

/-- Without a clash, a write is sound. -/
theorem atomicWriteFile_sound {l : LocalFs} {rand : Str} {ctxErr : Option Error} {data : Reader}
    {parts : List Str} {t : FS} (hclash : ¬ WriteClashes l rand ctxErr data parts t) :
    Prog.Under (Orderly rand none) (fun r t' => WriteSound (locate (l.full parts)) data r t t')
      (l.atomicWriteFile ctxErr data parts).run t := by
  cases ctxErr with
  | some e => exact writeSound_failed (.refl t)
  | none =>
    by_cases hparts : parts = []
    · subst hparts
      exact writeSound_failed (.refl t)
    · have hpost : Prog.Under (Orderly rand none)
          (Post (fun _ t' => ∃ t₁, AddsDirs (locate (l.full parts)).dropLast t t₁ ∧
              Replaced (Whole data) (locate (l.full parts)) t₁ t')
            fun t' => AddsDirs (locate (l.full parts)).dropLast t t')
          (l.atomicWriteFile none data parts).run t := by
        rw [atomicWriteFile_eq l data hparts]
        refine under_seq (under_sanitizeAndJoin (fun p hp hdir haccepts => ?_) (.refl t))
        refine under_seq (under_failing (under_call (under_mkdirAll
          (fun t₁ hdirs hfree hnode => ?_) fun t₁ hdirs => hdir ▸ hdirs)))
        rw [hdir] at hdirs hfree
        refine Prog.under_mono (fun r t' hr => ?_) (throughTemp_sound hnode nofun
          (fills_ioCopy data _) fun n content hn hwhole hsame hnone => ?_)
        · cases r with
          | ok _ => exact ⟨t₁, hdirs, hp ▸ hr⟩
          | error e => exact hdirs.trans fun k => Or.inl (hr k)
        · refine hclash ⟨rfl, hparts, haccepts, hwhole.1, (locate (l.full parts)).dropLast, n, ?_,
            hn, hdirs.node_none (hp ▸ hnone), hfree⟩
          rw [← hdir, hsame, hp]
      refine Prog.under_mono (fun r t' hr => ?_) hpost
      cases r with
      | ok _ =>
        obtain ⟨t₁, hdirs, hreplaced⟩ := hr
        exact writeSound_done hdirs hreplaced
      | error e => exact writeSound_failed hr

/-! ## Moves -/

section

variable {t t₁ t₂ t' : FS} {src dst : Loc}

theorem moveSound_failed {e : Error} (h : AddsDirs dst.dropLast t t') :
    MoveSound src dst (.error e) t t' where
  others _ _ _ _ hk := h.look_some hk
  noLitter _ hk := (h.node_new hk).imp_right Or.inl
  atTarget := Or.inl h.look_end
  source := Or.inl fun _ _ => h.look_some
  done := nofun

theorem moveSound_same (h : AddsDirs dst.dropLast t t') (hnode : t'.node dst ≠ none) :
    MoveSound dst dst (.ok ()) t t' where
  others _ _ _ _ hk := h.look_some hk
  noLitter _ hk := (h.node_new hk).imp_right Or.inl
  atTarget := Or.inl h.look_end
  source := Or.inl fun _ _ => h.look_some
  done _ := by
    refine ⟨?_, fun _ _ => h.look_some⟩
    rw [← h.look_end]
    exact fun hnone => hnode (FS.look_eq_none.mp hnone)

theorem moveSound_renamed (hdirs : AddsDirs dst.dropLast t t₁) (hnode : t₁.node src ≠ none)
    (hm : t₁.Movable src dst) (hdst : t₁.node dst ≠ some .dir) :
    MoveSound src dst (.ok ()) t (t₁.rename src dst hm) := by
  have hwhole : WholeAt t src (t₁.rename src dst hm) dst := by
    intro a entry hlook
    rw [FS.look_rename_beneath]
    exact hdirs.look_some hlook
  have hsrc : t.look src ≠ none := by
    rcases hdirs.look src with hsame | ⟨hway, _, _⟩
    · rw [← hsame]
      exact fun hnone => hnode (FS.look_eq_none.mp hnone)
    · exact absurd (hway.trans ( List.dropLast_prefix dst)) hm.not_beneath
  refine ⟨fun k content hk hks hlook => ?_, fun k hk => ?_, Or.inr hwhole, Or.inr hwhole,
    fun _ => ⟨hsrc, hwhole⟩⟩
  · have hold := hdirs.look_some hlook
    have hkd : ¬ dst <+: k := by
      intro hpre
      rw [FS.look_eq_none.mpr (FS.node_beneath hdst hpre hk)] at hold
      cases hold
    rw [FS.look_rename hks hkd, hold]
  · by_cases hkd : dst <+: k
    · exact Or.inr (Or.inr hkd)
    · by_cases hks : src <+: k
      · exact Or.inl (by simp [FS.rename, FS.movedNode, hkd, hks])
      · have hsame : (t₁.rename src dst hm).node k = t₁.node k := FS.movedNode_outside hks hkd
        rw [hsame]
        exact (hdirs.node_new hk).imp_right Or.inl

/-- A copy of a file at the target, whatever has become of the source. -/
theorem moveSound_copied {j : Nat} {result : Except Error Unit}
    (hdirs : AddsDirs dst.dropLast t t₁) (hj : t₁.node src = some (.file j)) (hne : src ≠ dst)
    (hcopied : Replaced (· = t₁.data j) dst t₁ t₂) (hrest : ∀ k, k ≠ src → SameAt k t₂ t') :
    MoveSound src dst result t t' := by
  have hsame : SameAt src t t₁ := hdirs.sameAt_file hj
  have hfile : t.node src = some (.file j) := hsame.1.symm.trans hj
  have hsrc : t.look src = some (.file (t.data j)) := look_file hfile
  have hwhole : WholeAt t src t' dst := by
    obtain ⟨content, rfl, hdst⟩ := hcopied.1
    refine (wholeAt_file_iff hfile).mpr ?_
    rw [(hrest dst (Ne.symm hne)).look, hdst, hsame.2 j hfile]
  have hothers : ∀ k, k ≠ src → k ≠ dst → SameAt k t₁ t' := fun k hks hkd =>
    (hcopied.2 k hkd).trans (hrest k hks)
  refine ⟨fun k content hkd hks hlook => ?_, fun k hk => ?_, Or.inr hwhole, Or.inr hwhole,
    fun _ => ⟨by simp [hsrc], hwhole⟩⟩
  · have hne : k ≠ src := fun h => hks (h ▸ List.prefix_rfl)
    exact (hothers k hne hkd).look.trans (hdirs.look_some hlook)
  · have hks : k ≠ src := by
      rintro rfl
      rw [hfile] at hk
      cases hk
    by_cases hkd : k = dst
    · exact Or.inr (Or.inr (hkd ▸ List.prefix_rfl))
    · rw [(hothers k hks hkd).1]
      exact (hdirs.node_new hk).imp_right Or.inl

end

def copyMessages : Messages :=
  ⟨"create tmp dst failed", "copy data failed", "close tmp dst failed", "chmod tmp dst failed",
    "rename tmp to dst failed"⟩

theorem copyFileContents_eq (src dst : Str) : LocalFs.copyFileContents src dst =
    failing "open src failed" (call (openFile src)) >>= fun input =>
      deferring (call (closeFile input)) (failing "stat src failed" (call (stat input)) >>= fun _ =>
        throughTemp copyMessages (dir dst) (str ".tmpcopy-") (fun tmp => copyFile tmp input) dst) :=
  rfl

section

variable {rand : Str} {t : FS}

theorem copyFileContents_sound {src dst : Str} (hdir : t.node (locate (dir dst)) = some .dir)
    (hclash : ∀ (n : Name) j, n.val = str ".tmpcopy-" ++ rand →
      t.node (locate src) = some (.file j) → locate (dir dst) ++ [n] = locate dst →
      t.node (locate dst) ≠ none) :
    Prog.Under (Orderly rand (some (locate src)))
      (Post (fun _ t' => ∃ j, t.node (locate src) = some (.file j) ∧
          Replaced (· = t.data j) (locate dst) t t')
        fun t' => ∀ k, SameAt k t t')
      (LocalFs.copyFileContents src dst).run t := by
  have hsame : ∀ k, SameAt k t t := fun k => .refl k t
  rw [copyFileContents_eq]
  refine under_seq (under_failing (under_call (under_openFile (fun node hnode => ?_) hsame)))
  refine under_deferring (fun t' ht' => under_call (under_closeFile ht'))
    (fun t' ht' => under_call (under_closeFile ht')) ?_
  refine under_seq (under_failing (under_call (under_checkHandle ?_ hsame)))
  have hsrc : ∀ l, some l = some (locate src) → t.node l ≠ none := by
    intro l hl
    cases hl
    simp [hnode]
  have hfresh : ∀ j, (⟨node, src⟩ : Handle).node = .file j → j < t.next := by
    rintro j rfl
    exact t.fresh _ j hnode
  refine Prog.under_mono (fun r t' hr => ?_) (throughTemp_sound hdir hsrc
    (fills_copyFile _ hfresh) fun n content hn ⟨j, hj, _⟩ => hclash n j hn (hj ▸ hnode))
  cases r with
  | error e => exact hr
  | ok _ =>
    obtain ⟨⟨content, ⟨j, hj, hcontent⟩, hlook⟩, hothers⟩ := hr
    exact ⟨j, hj ▸ hnode, ⟨content, hcontent, hlook⟩, hothers⟩

/-- A rename moves what is there, or fails; a file is not refused its own place. -/
theorem under_rename {src : Option Loc} {old new : Str} :
    Prog.Under (Orderly rand src)
      (Post (fun _ t' => t.node (locate old) ≠ none ∧
          ((locate old = locate new ∧ t' = t) ∨
            ∃ hm, t.node (locate new) ≠ some .dir ∧ t' = t.rename (locate old) (locate new) hm))
        fun t' => t' = t ∧ ∀ i, t.node (locate old) = some (.file i) → locate old ≠ locate new)
      (rename old new).run t := by
  refine Prog.under_call fun choice hchoice r t' effects hexec => ?_
  rcases t.renamePath_cases choice old new with ⟨e, heq⟩ | ⟨hsame, heq⟩ | ⟨hm, hdst, heq⟩ <;>
    cases heq.symm.trans hexec
  · refine ⟨rfl, fun i hfile hsame => ?_⟩
    rw [renamePath_same hfile hsame (hchoice hsame (by simp [hfile]))] at heq
    cases heq
  · exact ⟨renamePath_ok heq, Or.inl ⟨hsame, rfl⟩⟩
  · exact ⟨renamePath_ok heq, Or.inr ⟨hm, hdst, rfl⟩⟩

/-- The source is removed last, and nothing depends on it any more. -/
theorem under_removeSource {t₁ t₂ : FS} {src : Str} {dst : Loc} {j : Nat}
    {E : os.Call → os.Choice → os.State → Prop} (hdirs : AddsDirs dst.dropLast t t₁)
    (hj : t₁.node (locate src) = some (.file j)) (hne : locate src ≠ dst)
    (hcopied : Replaced (· = t₁.data j) dst t₁ t₂) :
    Prog.Under E (Post (fun _ t' => MoveSound (locate src) dst (.ok ()) t t')
      fun t' => ∀ e, MoveSound (locate src) dst (.error e) t t') (remove src).run t₂ := by
  refine Prog.under_call fun choice _ r t' effects hexec => ?_
  rcases t₂.remove_cases choice src with ⟨e, heq⟩ | ⟨hp, heq⟩ <;> cases heq.symm.trans hexec
  · exact fun _ => moveSound_copied hdirs hj hne hcopied fun k _ => .refl k t₂
  · exact moveSound_copied hdirs hj hne hcopied fun k hk => sameAt_prune (by simpa using hk)

theorem moveUploadedFile_eq (l : LocalFs) (srcParts dstParts : List Str) :
    l.moveUploadedFile none srcParts dstParts =
      failing "invalid src" (l.sanitizeAndJoin srcParts) >>= fun srcFull =>
      failing "invalid dst" (l.sanitizeAndJoin dstParts) >>= fun dstFull =>
      failing "ensure dst dir failed" (call (mkdirAll (dir dstFull))) >>= fun _ =>
      Prog.attempt (call (rename srcFull dstFull)) >>= fun
        | .ok _ => pure ()
        | .error _ =>
            failing "copy fallback failed" (LocalFs.copyFileContents srcFull dstFull) >>= fun _ =>
            failing "remove src after copy failed" (call (remove srcFull)) :=
  rfl

/-- Without a clash, a move is sound. -/
theorem moveUploadedFile_sound {l : LocalFs} {ctxErr : Option Error} {srcParts dstParts : List Str}
    (hclash : ¬ MoveClashes l rand ctxErr srcParts dstParts t) :
    Prog.Under (Orderly rand (some (locate (l.full srcParts))))
      (fun r t' => MoveSound (locate (l.full srcParts)) (locate (l.full dstParts)) r t t')
      (l.moveUploadedFile ctxErr srcParts dstParts).run t := by
  cases ctxErr with
  | some e => exact moveSound_failed (.refl t)
  | none =>
    have hpost : Prog.Under (Orderly rand (some (locate (l.full srcParts))))
        (Post (fun _ t' =>
            MoveSound (locate (l.full srcParts)) (locate (l.full dstParts)) (.ok ()) t t')
          fun t' => ∀ e,
            MoveSound (locate (l.full srcParts)) (locate (l.full dstParts)) (.error e) t t')
        (l.moveUploadedFile none srcParts dstParts).run t := by
      rw [moveUploadedFile_eq]
      refine under_seq (under_failing (under_sanitizeAndJoin
        (fun srcF hsrcF _ hsrcOk => ?_) fun _ => moveSound_failed (.refl t)))
      refine under_seq (under_failing (under_sanitizeAndJoin
        (fun dstF hdstF hdir hdstOk => ?_) fun _ => moveSound_failed (.refl t)))
      rw [← hdstF] at hdir
      rw [← hsrcF, ← hdstF]
      refine under_seq (under_failing (under_call (under_mkdirAll
        (fun t₁ hdirs hfree hnode => ?_) fun t₁ hdirs _ => moveSound_failed (hdir ▸ hdirs))))
      rw [hdir] at hdirs hfree
      refine Prog.under_bindE (Prog.under_attempt (Prog.under_mono (fun r t₂ hr => ?_)
        (under_call under_rename)))
      cases r with
      | ok _ =>
        obtain ⟨hthere, ⟨hsame, rfl⟩ | ⟨hm, hdst, rfl⟩⟩ := hr
        · show MoveSound _ _ (.ok ()) t t₂
          rw [hsame] at hthere ⊢
          exact moveSound_same hdirs hthere
        · exact moveSound_renamed hdirs hthere hm hdst
      | error e =>
        obtain ⟨rfl, hne⟩ := hr
        refine under_seq (under_failing (Prog.under_mono (fun r t₃ hr => ?_)
          (copyFileContents_sound hnode fun n j hn hj hsame hnone => ?_)))
        · cases r with
          | error e => exact fun _ => moveSound_failed (hdirs.trans fun k => Or.inl (hr k))
          | ok _ =>
            obtain ⟨j, hj, hcopied⟩ := hr
            exact under_failing (under_call (under_removeSource hdirs hj (hne j hj) hcopied))
        · rw [MoveClashes, ← hsrcF, ← hdstF] at hclash
          refine hclash ⟨rfl, hsrcOk, hdstOk, ⟨j, (hdirs.sameAt_file hj).1.symm.trans hj⟩,
            (locate dstF).dropLast, n, ?_, hn, hdirs.node_none hnone, hfree⟩
          rw [← hdir, hsame]
    refine Prog.under_mono (fun r t' hr => ?_) hpost
    cases r with
    | ok _ => exact hr
    | error e => exact hr e

end

end FileEngine.Filesystem
