import FileEngine.Filesystem.Linked
import FileEngine.Filesystem.NoLitter
import FileEngine.Os.LinkFree

/-!
# Uploads without links and without failures

`fs.go` is modelled twice: with calls that may fail, and with symbolic links. Where there are no
links and no call fails by itself, the two come to the same (`linkFree_agrees`): both succeed or
both fail with the same texts, and the tree of the one pictures the file system of the other.

`Agrees` says this of two programs; there is a rule for each way of building them.
-/

namespace FileEngine.Linked

open Go Os Filesystem Local

/-- No call fails by itself, and the random part of temporary names is `rand`. -/
def Calm (rand : Str) : os.Call → os.Choice → os.State → Prop :=
  fun _ choice _ => choice.fault = none ∧ choice.rand = rand

/-- The errors have the same texts; the calls that failed may say why in different ways. -/
inductive SameText : Error → Error → Prop
  | text (message : Str) : SameText (.text message) (.text message)
  | errno (e e' : Errno) : SameText (.errno e) (.errno e')
  | wrapped (message : Str) {e e' : Error} : SameText e e' →
      SameText (.wrapped message e) (.wrapped message e')

theorem SameText.refl (e : Error) : SameText e e := by
  induction e with
  | text message => exact .text message
  | errno e => exact .errno e e
  | wrapped message cause ih => exact .wrapped message ih

section

variable {α β γ δ : Type} {rand : Str} {t : FS} {T : Tree}

/-- From this file system and this tree the programs end in the same way. -/
def Agrees (rand : Str) (V : α → β → FS → Prop) (p : FsM α) (p' : TreeM β) (t : FS) (T : Tree) :
    Prop :=
  Prog.Under (Calm rand) (fun r t' => Pictures t' (p'.on T).2 ∧
    Alike SameText (fun a b => V a b t') r (p'.on T).1) p.run t

/-- Nothing is said about the results. -/
abbrev Anyway : α → β → FS → Prop := fun _ _ _ => True

/-! ## Rules for programs -/

theorem agrees_throw {V : α → β → FS → Prop} {e : Error} (h : Pictures t T) :
    Agrees rand V (throw e) (throw e) t T :=
  ⟨h, SameText.refl e⟩

theorem agrees_bind {V : α → β → FS → Prop} {W : γ → δ → FS → Prop} {p : FsM α} {p' : TreeM β}
    {f : α → FsM γ} {f' : β → TreeM δ} (hp : Agrees rand V p p' t T)
    (hf : ∀ a b t' T', Pictures t' T' → V a b t' → Agrees rand W (f a) (f' b) t' T') :
    Agrees rand W (p >>= f) (p' >>= f') t T := by
  refine Prog.under_bindE (Prog.under_mono (fun r t' hr => ?_) hp)
  obtain ⟨hpic, halike⟩ := hr
  cases hran : p' T with
  | mk result tree trail =>
    have hon : p'.on T = (result, tree) := by rw [TreeM.on, hran]
    rw [hon] at hpic halike
    cases r with
    | error e =>
      cases result with
      | ok b => exact halike.elim
      | error e' =>
        have hnext : (p' >>= f').on T = (.error e', tree) := by simp only [TreeM.on, bind, hran]
        rw [hnext]
        exact ⟨hpic, halike⟩
    | ok a =>
      cases result with
      | error e' => exact halike.elim
      | ok b =>
        have hnext : (p' >>= f').on T = (f' b).on tree := by simp only [TreeM.on, bind, hran]
        rw [hnext]
        exact hf a b t' tree hpic halike

theorem agrees_call {V : α → β → FS → Prop} {p : OsM α} {f : Tree → Except Errno β × Tree}
    (h : Prog.Under (Calm rand) (fun r t' => Pictures t' (f T).2 ∧
      Alike (fun _ _ => True) (fun a b => V a b t') r (f T).1) p.run t) :
    Agrees rand V (Filesystem.call p) (call f) t T :=
  Prog.under_bind (Prog.under_mono (fun _ _ hr =>
    ⟨hr.1, hr.2.mapError fun e e' _ => SameText.errno e e'⟩) h)

theorem agrees_failing {V : α → β → FS → Prop} {p : FsM α} {p' : TreeM β} {message : String}
    (h : Agrees rand V p p' t T) :
    Agrees rand V (Filesystem.failing message p) (failing message p') t T :=
  Prog.under_bind (Prog.under_mono (fun _ _ hr =>
    ⟨hr.1, hr.2.mapError fun _ _ hsame => SameText.wrapped _ hsame⟩) h)

theorem agrees_attempt {V : α → β → FS → Prop} {p : FsM α} {p' : TreeM β}
    (h : Agrees rand V p p' t T) :
    Agrees rand (fun r r' t' => Alike SameText (fun a b => V a b t') r r') (Prog.attempt p)
      (attempt p') t T :=
  Prog.under_attempt h

/-- The cleanup has no error, and leads from pictures to pictures. -/
theorem agrees_deferring {cleanup body : FsM Unit} {cleanup' body' : TreeM Unit}
    (hcleanup : ∀ t' T', Pictures t' T' → Prog.Under (Calm rand)
      (fun r t'' => r = .ok () ∧ Pictures t'' (cleanup'.on T').2) cleanup.run t')
    (h : Agrees rand Anyway body body' t T) :
    Agrees rand Anyway (Filesystem.deferring cleanup body) (deferring cleanup' body') t T := by
  refine Prog.under_bindE (Prog.under_attempt (Prog.under_mono (fun r t' hr => ?_) h))
  obtain ⟨hpic, halike⟩ := hr
  refine Prog.under_bindE (Prog.under_mono (fun r' t'' hr' => ?_) (hcleanup t' _ hpic))
  obtain ⟨rfl, hpic'⟩ := hr'
  cases r with
  | error e => exact ⟨hpic', halike⟩
  | ok _ => exact ⟨hpic', halike⟩

/-- A program without errors and effects. -/
def Idle (rand : Str) (p : FsM Unit) : Prop :=
  ∀ t, Prog.Under (Calm rand) (fun r t' => r = .ok () ∧ t' = t) p.run t

theorem agrees_idle {V : α → β → FS → Prop} {p : FsM Unit} (hp : Idle rand p) {q : FsM α}
    {q' : TreeM β} (h : Agrees rand V q q' t T) : Agrees rand V (p >>= fun _ => q) q' t T := by
  refine Prog.under_bindE (Prog.under_mono (fun r t' hr => ?_) (hp t))
  obtain ⟨rfl, rfl⟩ := hr
  exact h

theorem agrees_idle_after {cleanup body : FsM Unit} {body' : TreeM Unit}
    (hp : Idle rand cleanup) (h : Agrees rand Anyway body body' t T) :
    Agrees rand Anyway (Filesystem.deferring cleanup body) body' t T := by
  refine Prog.under_bindE (Prog.under_attempt (Prog.under_mono (fun r t' hr => ?_) h))
  refine Prog.under_bindE (Prog.under_mono (fun r' t'' hr' => ?_) (hp t'))
  obtain ⟨rfl, rfl⟩ := hr'
  cases r <;> exact hr

/-! ## Rules for calls -/

theorem idle_checkHandle (o : Handle) : Idle rand (Filesystem.call (checkHandle o)) := by
  intro t
  refine Prog.under_bind (Prog.under_call fun choice hcalm r t' effects hexec => ?_)
  have hclose : t.closeFile choice o = (.ok (), t, []) := by rw [FS.closeFile, hcalm.1]
  cases hclose.symm.trans hexec
  exact ⟨rfl, rfl⟩

theorem idle_failing {p : FsM Unit} {message : String} (hp : Idle rand p) :
    Idle rand (Filesystem.failing message p) := by
  intro t
  refine Prog.under_bind (Prog.under_mono (fun r t' hr => ?_) (hp t))
  obtain ⟨rfl, rfl⟩ := hr
  exact ⟨rfl, rfl⟩

theorem idle_call {p : OsM Unit}
    (h : ∀ t, Prog.Under (Calm rand) (Post (fun _ t' => t' = t) fun _ => False) p.run t) :
    Idle rand (Filesystem.call p) := by
  intro t
  refine Prog.under_mono (fun r t' hr => ?_) (under_call (h t))
  cases r with
  | error e => exact hr.elim
  | ok _ => exact ⟨rfl, hr⟩

theorem idle_sync (o : Handle) : Idle rand (Filesystem.call (sync o)) :=
  idle_call fun _ => under_sync rfl

theorem idle_closeFile (o : Handle) : Idle rand (Filesystem.call (closeFile o)) :=
  idle_call fun _ => under_closeFile rfl

theorem together_exec {V : α → β → FS → Prop} {ran : Result α} {ran' : Except Errno β × Tree}
    {r : Except Errno α} {t' : FS} {effects : List Effect} (h : Together V ran ran')
    (hexec : ran = (r, t', effects)) :
    Pictures t' ran'.2 ∧ Alike (fun _ _ => True) (fun a b => V a b t') r ran'.1 := by
  subst hexec
  exact h

theorem agrees_mkdirAll (h : Pictures t T) (path : Str) :
    Agrees rand Anyway (Filesystem.call (mkdirAll path)) (call (·.mkdirAll path)) t T :=
  agrees_call (Prog.under_call fun _ hcalm _ _ _ hexec =>
    together_exec (together_mkdirAll h hcalm.1 path) hexec)

theorem agrees_createTemp (h : Pictures t T) (dir pre : Str) :
    Agrees rand (IsTemp t) (Filesystem.call (createTemp dir pre))
      (call (·.createTemp rand dir pre)) t T :=
  agrees_call (Prog.under_call fun _ hcalm _ _ _ hexec =>
    hcalm.2 ▸ together_exec (together_createTemp h hcalm.1 dir pre) hexec)

theorem agrees_openFile (h : Pictures t T) (path : Str) :
    Agrees rand (fun input x t' => IsOpen t' input x) (Filesystem.call (openFile path))
      (look (·.openFile path)) t T :=
  agrees_call (Prog.under_call fun _ hcalm _ _ _ hexec =>
    together_exec (together_openFile h hcalm.1 path) hexec)

theorem agrees_chmod (h : Pictures t T) (path : Str) :
    Agrees rand Anyway (Filesystem.call (chmod path)) (look (·.stat path)) t T := by
  refine agrees_call (Prog.under_bindE (Prog.under_call fun _ hcalm r t' _ hexec => ?_))
  obtain ⟨hpic, halike⟩ := together_exec (together_stat h hcalm.1 path) hexec
  have hdone := halike.map (f := fun _ => ()) (W := fun _ _ => True) fun _ _ h => h
  cases r with
  | error e => exact ⟨hpic, hdone⟩
  | ok o => exact ⟨hpic, hdone⟩

theorem agrees_rename (h : Pictures t T) (old new : Str) :
    Agrees rand Anyway (Filesystem.call (rename old new)) (call (·.rename old new)) t T :=
  agrees_call (Prog.under_call fun _ hcalm _ _ _ hexec =>
    together_exec (together_rename h hcalm.1 old new) hexec)

theorem agrees_remove (h : Pictures t T) (path : Str) :
    Agrees rand Anyway (Filesystem.call (remove path)) (call (·.remove path)) t T :=
  agrees_call (Prog.under_call fun _ hcalm _ _ _ hexec =>
    together_exec (together_remove h hcalm.1 path) hexec)

/-! ## Rules for the steps of `fs.go` -/

/-- Both check the joined path. -/
theorem agrees_sanitized {l : LocalFs} (habs : isAbs l.baseRoot = true) (h : Pictures t T)
    (parts : List Str) :
    Agrees rand (fun p p' _ => p = p') (l.sanitizeAndJoin parts) (sanitized l parts) t T := by
  have hclean : clean (l.full parts) = l.full parts := by
    rw [Fs.full_eq_dest habs, clean_path]
  have hjoined : sanitizeAndJoin l T parts = l.checkBase (l.full parts) := by
    unfold sanitizeAndJoin
    cases heval : T.evalSymlinks (l.full parts) with
    | error e => rfl
    | ok p =>
      obtain ⟨rfl, -⟩ := h.evalSymlinks_iff.mp heval
      rw [Fs.full_eq_dest habs, locate_path]
  have heval : Prog.Under (Calm rand) (Post (fun p t' => p = l.full parts ∧ t' = t) (· = t))
      (Filesystem.call (evalSymlinks (l.full parts))).run t :=
    under_call (under_seq (under_openFile (fun _ _ => ⟨hclean, rfl⟩) rfl))
  have hsame : ∀ r, Alike SameText (fun p p' : Str => p = p') r r := by
    intro r
    cases r with
    | error e => exact SameText.refl e
    | ok p => rfl
  refine Prog.under_bindE (Prog.under_attempt (Prog.under_mono (fun r t' hr => ?_) heval))
  cases r with
  | error e =>
    obtain rfl : t' = t := hr
    refine ⟨h, ?_⟩
    show Alike _ _ (l.checkBase (l.full parts)) (sanitizeAndJoin l T parts)
    exact hjoined ▸ hsame _
  | ok p =>
    obtain ⟨rfl, rfl⟩ := hr
    refine ⟨h, ?_⟩
    show Alike _ _ (l.checkBase (l.full parts)) (sanitizeAndJoin l T parts)
    exact hjoined ▸ hsame _

/-- What may fill a new file. -/
def FillsAlike (rand : Str) (t : FS) (fill : Handle → OsM Unit) (fill' : Tree.Temp → TreeM Unit) :
    Prop :=
  ∀ tmp tmp' t' T', IsTemp t tmp tmp' t' → Pictures t' T' →
    Agrees rand Anyway (Filesystem.call (fill tmp)) (fill' tmp') t' T'

theorem fillsAlike_ioCopy (rand : Str) (t : FS) (reads : Reads) :
    FillsAlike rand t (fun tmp => LocalStorage.ioCopy tmp reads) fun tmp =>
      ioCopy tmp.loc reads := by
  intro tmp tmp' t' T' htmp h
  refine agrees_call (Prog.under_mono (fun r t'' hr => ?_)
    (under_ioCopy htmp.node htmp.empty reads))
  obtain ⟨content, rfl, -, hcalm⟩ := hr
  obtain ⟨rfl, rfl⟩ := hcalm fun _ _ _ hE => hE.1
  refine ⟨h.write htmp.loc reads.bytes, ?_⟩
  unfold copyResult
  dsimp only
  cases reads.err <;> exact trivial

theorem fillsAlike_copyFile {input : Handle} {x : Item} (rand : Str) (h : IsOpen t input x) :
    FillsAlike rand t (fun tmp => copyFile tmp input) fun tmp => copyItem tmp.loc x := by
  intro tmp tmp' t' T' htmp hpic
  refine agrees_call (Prog.under_call fun choice hcalm r t'' effects hexec => ?_)
  change t'.copyFile choice tmp input = _ at hexec
  cases h with
  | dir hdir =>
    rw [FS.copyFile, hdir] at hexec
    cases hexec
    exact ⟨hpic, trivial⟩
  | file i hfile hi =>
    rw [FS.copyFile, hfile] at hexec
    dsimp only at hexec
    rw [FS.writeAt, htmp.node, hcalm.1] at hexec
    dsimp only at hexec
    rw [htmp.empty, overlay_empty, htmp.old i hi] at hexec
    cases hexec
    exact ⟨hpic.write htmp.loc _, trivial⟩

/-- What is deferred for a temporary file is the removal of its name. -/
theorem under_discardTemp (h : Pictures t T) (tmp : Handle) :
    Prog.Under (Calm rand)
      (fun r t' => r = .ok () ∧ Pictures t' ((call (·.remove tmp.name)).on T).2)
      (discardTemp tmp).run t := by
  refine Prog.under_bindE (Prog.under_mono (fun r t' hr => ?_) (idle_closeFile tmp t))
  obtain ⟨rfl, rfl⟩ := hr
  refine Prog.under_bind (Prog.under_bindE (Prog.under_attempt
    (Prog.under_call fun choice hcalm r t'' effects hexec => ?_)))
  exact ⟨rfl, (together_exec (together_remove h hcalm.1 tmp.name) hexec).1⟩

theorem agrees_throughTemp {m : Messages} {fill : Handle → OsM Unit}
    {fill' : Tree.Temp → TreeM Unit} (h : Pictures t T) (hfill : FillsAlike rand t fill fill')
    (parent pre target : Str) :
    Agrees rand Anyway (throughTemp m parent pre fill target) (do
      let tmp ← failing m.create (call (·.createTemp rand parent pre))
      deferring (call (·.remove tmp.name)) do
        failing m.fill (fill' tmp)
        let _ ← failing m.chmod (look (·.stat tmp.name))
        failing m.rename (call (·.rename tmp.name target))) t T := by
  refine agrees_bind (agrees_failing (agrees_createTemp h parent pre)) ?_
  intro tmp tmp' t₁ T₁ h₁ htmp
  have hname := htmp.name
  refine agrees_deferring (fun t' T' h' => ?_) ?_
  · rw [← hname]
    exact under_discardTemp h' tmp
  · refine agrees_bind (agrees_failing (hfill tmp tmp' t₁ T₁ htmp h₁)) fun _ _ t₂ T₂ h₂ _ => ?_
    refine agrees_idle (idle_sync tmp) (agrees_idle (idle_failing (idle_checkHandle tmp)) ?_)
    rw [hname]
    refine agrees_bind (agrees_failing (agrees_chmod h₂ _)) fun _ _ t₃ T₃ h₃ _ => ?_
    exact agrees_failing (agrees_rename h₃ _ _)

theorem agrees_copyFileContents (h : Pictures t T) (src dst : Str) :
    Agrees rand Anyway (LocalFs.copyFileContents src dst) (copyFileContents rand src dst) t T := by
  rw [copyFileContents_eq]
  refine agrees_bind (agrees_failing (agrees_openFile h src)) fun input x t' T' h' hopen => ?_
  refine agrees_idle_after (idle_closeFile input) ?_
  refine agrees_idle (idle_failing (idle_checkHandle input)) ?_
  exact agrees_throughTemp h' (fillsAlike_copyFile rand hopen) (dir dst) (str ".tmpcopy-") dst

theorem agrees_atomicWriteFile {l : LocalFs} (habs : isAbs l.baseRoot = true) (h : Pictures t T)
    (ctxErr : Option Error) (data : Reader) (parts : List Str) :
    Agrees rand Anyway (l.atomicWriteFile ctxErr data parts)
      (atomicWriteFile l ctxErr rand data parts) t T := by
  cases ctxErr with
  | some e => exact agrees_throw h
  | none =>
    by_cases hparts : parts = []
    · subst hparts
      exact agrees_throw h
    · rw [atomicWriteFile_eq l data hparts]
      unfold atomicWriteFile
      simp only [hparts, if_false]
      refine agrees_bind (agrees_sanitized habs h parts) ?_
      rintro p _ t₁ T₁ h₁ rfl
      refine agrees_bind (agrees_failing (agrees_mkdirAll h₁ (dir p))) fun _ _ t₂ T₂ h₂ _ => ?_
      exact agrees_throughTemp h₂ (fillsAlike_ioCopy rand t₂ _) (dir p) (str ".tmp-") p

theorem agrees_moveUploadedFile {l : LocalFs} (habs : isAbs l.baseRoot = true)
    (h : Pictures t T) (ctxErr : Option Error) (srcParts dstParts : List Str) :
    Agrees rand Anyway (l.moveUploadedFile ctxErr srcParts dstParts)
      (moveUploadedFile l ctxErr rand srcParts dstParts) t T := by
  cases ctxErr with
  | some e => exact agrees_throw h
  | none =>
    refine agrees_bind (agrees_failing (agrees_sanitized habs h srcParts)) ?_
    rintro src _ t₁ T₁ h₁ rfl
    refine agrees_bind (agrees_failing (agrees_sanitized habs h₁ dstParts)) ?_
    rintro dst _ t₂ T₂ h₂ rfl
    refine agrees_bind (agrees_failing (agrees_mkdirAll h₂ (dir dst))) fun _ _ t₃ T₃ h₃ _ => ?_
    refine agrees_bind (agrees_attempt (agrees_rename h₃ src dst)) fun r r' t₄ T₄ h₄ hr => ?_
    cases r with
    | ok _ =>
      cases r' with
      | ok _ => exact ⟨h₄, trivial⟩
      | error e' => exact hr.elim
    | error e =>
      cases r' with
      | ok _ => exact hr.elim
      | error e' =>
        refine agrees_bind (agrees_failing (agrees_copyFileContents h₄ src dst))
          fun _ _ t₅ T₅ h₅ _ => ?_
        exact agrees_failing (agrees_remove h₅ src)

end

/-- **The two models agree without links.** Let no call fail by itself. From every file system
and its picture, `AtomicWriteFile` and `MoveUploadedFile` succeed in both models, or fail in both
with the same texts, and afterwards the tree pictures the file system again. -/
theorem linkFree_agrees {l : LocalFs} (habs : isAbs l.baseRoot = true) (t : FS) {rand : Str}
    {choices : Nat → Choice}
    (hcalm : ∀ n, (choices n).fault = none ∧ (choices n).rand = rand) (ctxErr : Option Error) :
    (∀ data parts,
      let ran := Prog.run (l.atomicWriteFile ctxErr data parts).run choices t
      let ran' := (atomicWriteFile l ctxErr rand data parts).on t.tree
      Pictures ran.state ran'.2 ∧ Alike SameText (fun _ _ => True) ran.value ran'.1) ∧
    ∀ srcParts dstParts,
      let ran := Prog.run (l.moveUploadedFile ctxErr srcParts dstParts).run choices t
      let ran' := (moveUploadedFile l ctxErr rand srcParts dstParts).on t.tree
      Pictures ran.state ran'.2 ∧ Alike SameText (fun _ _ => True) ran.value ran'.1 := by
  have h := pictures_tree t
  have hobeys : ∀ p : FsM Unit, Prog.Obeys (M := os) (Calm rand) p.run choices t :=
    fun p => Prog.obeys_of_forall (M := os) (fun n _ _ => hcalm n) p.run t
  refine ⟨fun data parts => ?_, fun srcParts dstParts => ?_⟩
  · exact Prog.run_of_under (agrees_atomicWriteFile habs h ctxErr data parts) (hobeys _)
  · exact Prog.run_of_under (agrees_moveUploadedFile habs h ctxErr srcParts dstParts) (hobeys _)

end FileEngine.Linked
