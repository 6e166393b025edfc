import FileEngine.Storage.LocalContents
import FileEngine.Storage.LocalWriters

/-!
# Downloads beside uploads

On the local backend a download opens the file and then reads it in pieces, while uploads and
folder tasks go on. Here all of them are interleaved one system call at a time. The open file is
the inode that stood at the path, and what is read of it later are pieces of the content that it
had when it was opened: a writer has only its temporary file open for writing, and closes it
before the rename (`opened_unchanged`). So a download gives one version of the file, the old one
or the whole content of one upload (`download_one_version`).
-/

namespace FileEngine.Local

open Go Os

/-! ## The open files of the writers -/

/-- What one system call does to the contents. The ghost value is the inode that the program has
open for writing. -/
inductive Fills : Option Nat → FS → Option Nat → FS → Prop
  | aside {t t' : FS} : t.next ≤ t'.next → (∀ n < t.next, t'.data n = t.data n) →
      Fills none t none t'
  | create {t t' : FS} (l : Loc) : t.node l = none → t'.node l = some (.file t.next) →
      (∀ k, k ≠ l → t'.node k = t.node k) → t.next < t'.next →
      (∀ n < t.next, t'.data n = t.data n) → Fills none t (some t.next) t'
  | write {t t' : FS} {n : Nat} : t'.node = t.node → t'.next = t.next →
      (∀ m, m ≠ n → t'.data m = t.data m) → Fills (some n) t (some n) t'
  | close {t : FS} {n : Nat} : Fills (some n) t none t

theorem fills_refl (d : Option Nat) (t : FS) : Fills d t d t := by
  cases d with
  | none => exact .aside le_rfl fun _ _ => rfl
  | some n => exact .write rfl rfl fun _ _ => rfl

/-- An inode that no program has open for writing keeps its content. -/
theorem Fills.data {d d' : Option Nat} {t t' : FS} (h : Fills d t d' t') {n : Nat}
    (hn : n < t.next) (hd : d ≠ some n) :
    n < t'.next ∧ t'.data n = t.data n ∧ d' ≠ some n := by
  cases h with
  | aside hnext hdata => exact ⟨hn.trans_le hnext, hdata n hn, hd⟩
  | create l _ _ _ hnext hdata =>
    refine ⟨hn.trans hnext, hdata n hn, ?_⟩
    rintro ⟨⟩
    exact Nat.lt_irrefl _ hn
  | @write _ _ m hnode hnext hdata =>
    refine ⟨hnext ▸ hn, hdata n ?_, hd⟩
    rintro rfl
    exact hd rfl
  | close => exact ⟨hn, rfl, nofun⟩

theorem mkdirs_fills (t : FS) (fault : Option (Nat × Errno)) (k rest : Loc) :
    t.next ≤ (t.mkdirs fault k rest).2.1.next ∧
      ∀ n < t.next, (t.mkdirs fault k rest).2.1.data n = t.data n := by
  fun_induction FS.mkdirs t fault k rest with
  | case3 t fault k n rest _ fault' hnew hdir r t' effects heq ih =>
    rw [heq] at ih
    obtain ⟨hnext, hdata⟩ := ih
    refine ⟨(Nat.le_succ _).trans hnext, fun m hm => ?_⟩
    refine (hdata m (hm.trans (Nat.lt_succ_self _))).trans ?_
    exact Function.update_of_ne (Nat.ne_of_lt hm) _ _
  | case5 t fault k n rest _ fault' _ _ ih => exact ih
  | _ => exact ⟨le_rfl, fun _ _ => rfl⟩

section

variable {ι : Type} [DecidableEq ι]

/-- The agreement on open files. -/
def filling : Protocol os ι (Option Nat) where
  Rely _ _ _ _ := True
  Guar _ := Fills
  Inv _ _ := True
  rely_refl _ _ _ := trivial
  rely_trans _ _ _ _ _ _ _ := trivial
  stutter _ := fills_refl
  step _ _ _ _ _ _ _ := ⟨trivial, fun _ _ => trivial⟩

variable {A : FS → Effect → Prop} {i : ι}

theorem fills_copyChunks {n : Nat} {tmp : Handle} (htmp : tmp.node = .file n)
    (chunks : List Str) (offset : Nat) (t : FS) :
    filling.Follows A i (fun _ d _ => d = some n)
      (LocalStorage.copyChunks tmp offset chunks).run (some n) t := by
  induction chunks generalizing offset t with
  | nil => rfl
  | cons chunk chunks ih =>
    unfold LocalStorage.copyChunks
    split
    · refine Protocol.follows_bindE (Protocol.follows_call fun t' _ choice res t'' _ hexec _ => ?_)
      change t'.writeAt choice tmp offset chunk = _ at hexec
      have hwrite : Fills (some n) t' (some n) t'' := by
        rcases writeAt_file t' choice htmp offset chunk with ⟨e, steps, _, heq⟩ | ⟨_, heq⟩
        · cases heq.symm.trans hexec
          exact .write rfl rfl fun m hm => Function.update_of_ne hm _ _
        · cases heq.symm.trans hexec
          exact .write rfl rfl fun m hm => Function.update_of_ne hm _ _
      refine ⟨some n, hwrite, ?_⟩
      cases res with
      | error e => rfl
      | ok _ => exact ih _ t''
    · exact ih _ t

theorem fills_ioCopy {n : Nat} {tmp : Handle} (htmp : tmp.node = .file n) (reads : Reads) (t : FS) :
    filling.Follows A i (fun _ d _ => d = some n) (LocalStorage.ioCopy tmp reads).run
      (some n) t := by
  refine Protocol.follows_bindE (Protocol.follows_mono (fun res d t' hd => ?_)
    (fills_copyChunks htmp (reads.chunks ++ [reads.last]) 0 t))
  cases res with
  | error e => exact hd
  | ok _ => cases reads.err <;> exact hd

theorem fills_mkdirAll (path : Str) {Q : Except Errno Unit → Option Nat → FS → Prop} (t : FS)
    (hQ : ∀ res t', Q res none t') :
    filling.Follows A i Q (mkdirAll path).run none t := by
  refine Protocol.follows_call fun t' _ choice res t'' _ hexec _ => ⟨none, ?_, hQ res t''⟩
  obtain ⟨hnext, hdata⟩ := mkdirs_fills t' choice.fault [] (locate path)
  have ht'' : t'' = (t'.mkdirs choice.fault [] (locate path)).2.1 :=
    (congrArg (fun out => out.2.1) hexec).symm
  rw [ht'']
  exact .aside hnext hdata

theorem fills_closeFile {tmp : Handle} {n : Nat} {Q : Except Errno Unit → Option Nat → FS → Prop}
    (t : FS) (hQ : ∀ t', Q (.ok ()) none t') :
    filling.Follows A i Q (closeFile tmp).run (some n) t := by
  intro t' _ choice _
  have hsame : (exec (.closeFile tmp) choice t').2.1 = t' := by
    obtain ⟨res, heq⟩ := t'.closeFile_cases choice tmp
    simp only [exec, heq]
  refine ⟨none, ?_, hQ _⟩
  show Fills (some n) t' none (exec (.closeFile tmp) choice t').2.1
  rw [hsame]
  exact .close

theorem fills_rename (old new : Str) {Q : Except Errno Unit → Option Nat → FS → Prop} (t : FS)
    (hQ : ∀ res t', Q res none t') :
    filling.Follows A i Q (rename old new).run none t := by
  refine Protocol.follows_call fun t' _ choice res t'' _ hexec _ => ⟨none, ?_, hQ res t''⟩
  change t'.renamePath choice old new = _ at hexec
  rcases t'.renamePath_cases choice old new with ⟨e, heq⟩ | ⟨_, heq⟩ | ⟨hm, _, heq⟩
  · cases heq.symm.trans hexec
    exact fills_refl none t'
  · cases heq.symm.trans hexec
    exact fills_refl none t'
  · cases heq.symm.trans hexec
    exact .aside le_rfl fun _ _ => rfl

/-- An upload has its temporary file open until it is complete. -/
theorem fills_atomicWrite (s : LocalStorage) (path : Str) (r : Reader) (t : FS) :
    filling.Follows A i (fun _ _ _ => True) (s.atomicWrite path r).run none t := by
  refine Protocol.follows_bindE (fills_mkdirAll _ t fun made t₁ => ?_)
  cases made with
  | error e => trivial
  | ok _ =>
    refine Protocol.follows_bindE (Protocol.follows_call
      fun t₂ _ choice created t₂' _ hexec _ => ?_)
    change t₂.createTemp choice (dir (s.full path)) (str ".tmp-") = _ at hexec
    rcases t₂.createTemp_cases choice (dir (s.full path)) (str ".tmp-") with
      ⟨e, heq⟩ | ⟨name, hv, _, heq⟩
    · cases heq.symm.trans hexec
      exact ⟨none, fills_refl none t₂, trivial⟩
    · cases heq.symm.trans hexec
      refine ⟨some t₂.next, .create (locate (dir (s.full path)) ++ [name]) hv.new ?_ ?_ ?_ ?_, ?_⟩
      · simp [FS.insert]
      · exact fun k hk => Function.update_of_ne hk _ _
      · exact Nat.lt_succ_self _
      · exact fun n hn => Function.update_of_ne (Nat.ne_of_lt hn) _ _
      refine Protocol.follows_bindE (Protocol.follows_attempt (Protocol.follows_mono
        (fun copied d t₃ hd => ?_) (fills_ioCopy rfl (r (32 * 1024)) _)))
      subst hd
      cases copied with
      | error e => exact Protocol.follows_bindE (fills_closeFile t₃ fun _ => trivial)
      | ok _ =>
        exact Protocol.follows_bindE (fills_closeFile t₃ fun t₄ =>
          fills_rename _ _ t₄ fun _ _ => trivial)

end

/-! ## What is open is a temporary file -/

/-- The file that a writer has open is its temporary file. -/
def OpenTemp (g : Stage) (d : Option Nat) : Prop := ∀ n, d = some n → ∃ l, g = .temp l n

/-- A renamed file is found at its target, which is another place. -/
theorem node_renamed {t : FS} {l target : Loc} {n : Nat} (hm : t.Movable l target)
    (hl : t.node l = some (.file n)) :
    (t.rename l target hm).node target = some (.file n) ∧ l ≠ target := by
  have hmoved := t.movedNode_beneath l target []
  rw [List.append_nil, List.append_nil] at hmoved
  refine ⟨hmoved.trans hl, ?_⟩
  rintro rfl
  exact hm.not_beneath List.prefix_rfl

theorem openTemp_next {Temp : Loc → Prop} {target : Loc} {r : Reader} {g g' : Stage}
    {d d' : Option Nat} {t t' : FS} (hown : ∀ l n, g = .temp l n → t.node l = some (.file n))
    (hdoes : Does Temp target r g t g' t') (hfills : Fills d t d' t') (h : OpenTemp g d) :
    OpenTemp g' d' := by
  rintro n rfl
  cases hfills with
  | create k hnone hnew hothers _ _ =>
    cases hdoes with
    | dirs way hdirs =>
      rcases hdirs k with hsame | hdir
      · rw [hsame.1, hnone] at hnew
        cases hnew
      · rw [hdir.2.2] at hnew
        cases hnew
    | @create _ l hv _ => exact ⟨l, rfl⟩
    | write content =>
      rw [show FS.node (t.write _ content) k = t.node k from rfl, hnone] at hnew
      cases hnew
    | @install _ l m hm hdst hwhole =>
      -- the file would be at both places
      have hl := hown l m rfl
      obtain ⟨htarget, hne⟩ := node_renamed hm hl
      have hkeep : FS.node (t.rename l target hm) l = some (.file m) := by
        refine (hothers l ?_).trans hl
        rintro rfl
        rw [hnone] at hl
        cases hl
      exact absurd (FS.single _ l target m hkeep htarget) hne
  | write hnode _ _ =>
    obtain ⟨l, rfl⟩ := h n rfl
    cases hdoes with
    | dirs way hdirs => exact ⟨l, rfl⟩
    | write content => exact ⟨l, rfl⟩
    | install hm hdst hwhole =>
      have hl := hown l n rfl
      obtain ⟨htarget, hne⟩ := node_renamed hm hl
      rw [hnode] at htarget
      exact absurd (t.single l target n hl htarget) hne

/-! ## Uploads and folder tasks side by side -/

/-- What the server and the workers do on the tree. -/
inductive Job
  | upload (path : Str) (r : Reader)
  | folder (path : Str)

namespace Job

def path : Job → Str
  | upload path _ | folder path => path

def prog (s : LocalStorage) : Job → OsM Unit
  | upload path r => s.atomicWrite path r
  | folder path => s.createFolder path

/-- What is uploaded; a folder task has nothing to upload. -/
def reader : Job → Reader
  | upload _ r => r
  | folder _ => fun _ => ⟨[], [], .other []⟩

def isUpload : Job → Bool
  | upload _ _ => true
  | folder _ => false

theorem upload_of_whole {job : Job} {content : Str} (h : Whole job.reader content) :
    ∃ path r, job = upload path r ∧ Whole r content := by
  cases job with
  | upload path r => exact ⟨path, r, rfl, h⟩
  | folder path => exact absurd h.1 nofun

end Job

/-- Only temporary files are created. -/
def Creates (e : Effect) : Prop := ∀ l, e = .created l false → TempName l

theorem creates_mkdirAll (path : Str) : Prog.Emits (M := os) Creates (mkdirAll path).run := by
  refine Prog.emits_call fun choice t e he l hl => ?_
  obtain ⟨k, hk, _⟩ := mkdirs_effects t choice.fault [] (locate path) e he
  cases hk.symm.trans hl

theorem creates_writeAt (h : Handle) (offset : Nat) (bytes : Str) :
    Prog.Emits (M := os) Creates (writeAt h offset bytes).run := by
  refine Prog.emits_call fun choice t e he l hl => ?_
  change e ∈ (t.writeAt choice h offset bytes).2.2 at he
  rcases t.writeAt_cases choice h offset bytes with ⟨e', heq⟩ | ⟨i, r, content, _, heq⟩
  · rw [heq] at he
    cases he
  · rw [heq] at he
    obtain ⟨k, _, hk⟩ := List.mem_map.mp he
    cases hk.trans hl

theorem creates_copyChunks (tmp : Handle) (offset : Nat) (chunks : List Str) :
    Prog.Emits (M := os) Creates (LocalStorage.copyChunks tmp offset chunks).run := by
  induction chunks generalizing offset with
  | nil => trivial
  | cons chunk chunks ih =>
    unfold LocalStorage.copyChunks
    split
    · exact Prog.emits_bindE (creates_writeAt tmp offset chunk) fun _ => ih _
    · exact ih _

theorem creates_ioCopy (tmp : Handle) (reads : Reads) :
    Prog.Emits (M := os) Creates (LocalStorage.ioCopy tmp reads).run := by
  refine Prog.emits_bindE (creates_copyChunks tmp 0 _) fun _ => ?_
  cases reads.err <;> trivial

theorem creates_createTemp (dir : Str) :
    Prog.Emits (M := os) Creates (createTemp dir (str ".tmp-")).run := by
  refine Prog.emits_call fun choice t e he l hl => ?_
  change e ∈ (t.createTemp choice dir (str ".tmp-")).2.2 at he
  rcases t.createTemp_cases choice dir (str ".tmp-") with ⟨e', heq⟩ | ⟨n, hv, hn, heq⟩
  · rw [heq] at he
    cases he
  · rw [heq] at he
    cases (List.mem_singleton.mp he).symm.trans hl
    exact tempName_child (hn ▸ List.prefix_append _ _)

theorem creates_closeFile (h : Handle) : Prog.Emits (M := os) Creates (closeFile h).run := by
  refine fun choice t => ⟨fun e he => ?_, trivial⟩
  change e ∈ (t.closeFile choice h).2.2 at he
  obtain ⟨res, heq⟩ := t.closeFile_cases choice h
  rw [heq] at he
  cases he

theorem creates_rename (old new : Str) : Prog.Emits (M := os) Creates (rename old new).run := by
  refine Prog.emits_call fun choice t e he l hl => ?_
  change e ∈ (t.renamePath choice old new).2.2 at he
  rcases t.renamePath_cases choice old new with ⟨e', heq⟩ | ⟨_, heq⟩ | ⟨hm, _, heq⟩
  · rw [heq] at he
    cases he
  · rw [heq] at he
    cases (List.mem_singleton.mp he).symm.trans hl
  · rw [heq] at he
    cases (List.mem_singleton.mp he).symm.trans hl

theorem creates_job (s : LocalStorage) (job : Job) :
    Prog.Emits (M := os) Creates (job.prog s).run := by
  cases job with
  | folder path => exact creates_mkdirAll _
  | upload path r =>
    refine Prog.emits_bindE (creates_mkdirAll _) fun _ =>
      Prog.emits_bindE (creates_createTemp _) fun tmp =>
      Prog.emits_bindE (Prog.emits_attempt (creates_ioCopy tmp _)) fun copied => ?_
    cases copied with
    | error e => exact Prog.emits_bindE (creates_closeFile tmp) fun _ => trivial
    | ok _ => exact Prog.emits_bindE (creates_closeFile tmp) fun _ => creates_rename _ _

section

variable {ι : Type} {s : LocalStorage} {job : ι → Job}

theorem temp_ne_target (hnames : ∀ i, ¬ TempName (locate (s.full (job i).path))) (_ : ι) (l : Loc)
    (hl : TempName l) (j : ι) : l ≠ locate (s.full (job j).path) := by
  rintro rfl
  exact hnames j hl

def jobs (s : LocalStorage) (job : ι → Job) (t : FS) : Pool os ι (Except Errno Unit) :=
  ⟨fun i => ((job i).prog s).run, t⟩

variable [DecidableEq ι]

theorem jobs_allowed (s : LocalStorage) (job : ι → Job) (t : FS) (sched : List (ι × Choice)) :
    (jobs s job t).Allowed (fun _ _ => Creates) sched :=
  Pool.allowed_of_emits (p := jobs s job t) (fun i => creates_job s (job i)) sched

/-- The agreement of the writers, for these jobs. -/
abbrev jobWriting (s : LocalStorage) (job : ι → Job)
    (hnames : ∀ i, ¬ TempName (locate (s.full (job i).path))) : Protocol os ι Stage :=
  writing (fun _ => TempName) (fun i => locate (s.full (job i).path)) (fun i => (job i).reader)
    (temp_ne_target hnames)

theorem jobs_writing (hnames : ∀ i, ¬ TempName (locate (s.full (job i).path))) (t : FS) :
    (jobWriting s job hnames).Holds (fun _ _ => Creates)
      (fun i res g => g = .installed ↔ (job i).isUpload = true ∧ res = .ok ()) (fun _ => .start)
      (jobs s job t) where
  inv := by constructor <;> simp
  follows i := by
    show Protocol.Follows _ _ i _ ((job i).prog s).run _ _
    cases hjob : job i with
    | folder path =>
      refine Protocol.follows_call fun t' _ choice res t'' _ hexec _ => ?_
      have hdirs := addsDirs_mkdirAll t' choice (s.full path)
      change t'.mkdirAll choice (s.full path) = _ at hexec
      rw [hexec] at hdirs
      refine ⟨.start, .dirs _ hdirs, ?_⟩
      simp [Job.isUpload]
    | upload path r =>
      have hreader : r = (job i).reader := by rw [hjob]; rfl
      rw [hreader]
      refine Protocol.follows_mono (fun res g _ hres => ?_) (follows_atomicWrite s path ?_ _)
      · rw [← hres]
        simp [Job.isUpload]
      · rw [hjob]
        rfl

theorem jobs_filling (t : FS) :
    filling.Holds (fun _ _ => Creates) (fun _ _ _ => True) (fun _ => none) (jobs s job t) where
  inv := trivial
  follows i := by
    show Protocol.Follows _ _ i _ ((job i).prog s).run _ _
    cases job i with
    | folder path => exact fills_mkdirAll _ t fun _ _ => trivial
    | upload path r => exact fills_atomicWrite s path r t

theorem openTemp_link (hnames : ∀ i, ¬ TempName (locate (s.full (job i).path))) (γ : ι → Stage)
    (t : FS) (i : ι) (g' : Stage) (t' : FS) (d d' : Option Nat)
    (hown : (jobWriting s job hnames).Inv γ t)
    (hdoes : (jobWriting s job hnames).Guar i (γ i) t g' t') (hfills : Fills d t d' t')
    (h : OpenTemp (γ i) d) : OpenTemp g' d' :=
  openTemp_next ((hown : Owns _ γ t).file i) hdoes hfills h

/-- Both agreements. -/
abbrev serving (s : LocalStorage) (job : ι → Job)
    (hnames : ∀ i, ¬ TempName (locate (s.full (job i).path))) :
    Protocol os ι (Stage × Option Nat) :=
  (jobWriting s job hnames).both filling OpenTemp (openTemp_link hnames)

theorem jobs_serving (hnames : ∀ i, ¬ TempName (locate (s.full (job i).path))) (t : FS) :
    (serving s job hnames).Holds (fun _ _ => Creates)
      (fun i res g => (g.1 = .installed ↔ (job i).isUpload = true ∧ res = .ok ()) ∧ True)
      (fun _ => (.start, none)) (jobs s job t) :=
  (jobs_writing hnames t).both (jobs_filling t) fun _ => nofun

/-! ## One version -/

/-- Wherever the jobs stand: a place that is not temporary is as it was at the start, or an upload
has put its whole content there. -/
theorem jobs_oldOrWritten (hnames : ∀ i, ¬ TempName (locate (s.full (job i).path))) (t : FS)
    (sched : List (ι × Choice)) {l : Loc} (hl : ¬ TempName l) :
    OldOrWritten (fun i => locate (s.full (job i).path)) (fun i => (job i).reader) t
      ((jobs s job t).run sched).state l := by
  obtain ⟨γ, hcommitted, _⟩ := Protocol.run_commits (writing_commitPoint (temp_ne_target hnames))
    (jobs_writing hnames t) (fun _ => nofun) (jobs_allowed s job t sched)
  refine Pool.run_invariant (J := fun t' => OldOrWritten (fun i => locate (s.full (job i).path))
    (fun i => (job i).reader) t t' l) (Or.inl rfl) hcommitted.turns ?_ ?_
  · intro i t' t'' h hquiet
    rcases hquiet l hl with hsame | hdir
    · exact h.next (Or.inl hsame)
    · exact h.next (Or.inr (Or.inl hdir))
  · rintro i t' t'' h ⟨⟨content, hwhole, hlook⟩, hothers⟩
    by_cases hli : l = locate (s.full (job i).path)
    · exact Or.inr (Or.inr ⟨i, content, hli.symm, hwhole, hli ▸ hlook⟩)
    · exact h.next (Or.inl (hothers l hli hl))

/-- Nobody writes to an inode that has stood at a place for content: it keeps what it had. -/
theorem opened_unchanged (hnames : ∀ i, ¬ TempName (locate (s.full (job i).path))) (t : FS)
    (turns rest : List (ι × Choice)) {l : Loc} (hl : ¬ TempName l) {n : Nat}
    (hn : ((jobs s job t).run turns).state.node l = some (.file n)) :
    (((jobs s job t).run turns).run rest).state.data n =
      ((jobs s job t).run turns).state.data n := by
  have hafter : ((jobs s job t).run turns).Allowed (fun _ _ => Creates) rest := by
    intro i t' e he
    refine jobs_allowed s job t (turns ++ rest) i t' e ?_
    rw [Pool.log_append]
    exact List.mem_append_right _ he
  obtain ⟨γ, _, hopened⟩ := Protocol.run_induction (jobs_serving hnames t) (fun _ _ => True)
    trivial (jobs_allowed s job t turns) fun _ _ _ _ _ _ _ _ _ => trivial
  obtain ⟨hown, _, hopen⟩ := hopened.inv
  -- a writer that had the inode open would own it as its temporary file
  have hfree : ∀ i, (γ i).2 ≠ some n := by
    intro i hi
    obtain ⟨k, hk⟩ := hopen i n hi
    have hkn := hown.file i k n hk
    rw [FS.single _ l k n hn hkn] at hl
    exact hl (hown.temp i k n hk)
  obtain ⟨_, ⟨_, hdata, _⟩, _⟩ := Protocol.run_induction hopened
    (fun before γ => n < (((jobs s job t).run turns).run before).state.next ∧
      (((jobs s job t).run turns).run before).state.data n =
        ((jobs s job t).run turns).state.data n ∧ ∀ i, (γ i).2 ≠ some n)
    ⟨FS.fresh _ l n hn, rfl, hfree⟩ hafter (by
      rintro before i choice γ g' _ ⟨hnext, hdata, hfree⟩ _ ⟨_, hfills⟩
      obtain ⟨hnext', hdata', hfree'⟩ := Fills.data hfills hnext (hfree i)
      refine ⟨hnext', hdata'.trans hdata, fun j hj => ?_⟩
      rcases of_update (R := fun g : Stage × Option Nat => g.2 = some n) hj with
        ⟨_, hnew⟩ | ⟨_, hold⟩
      · exact hfree' hnew
      · exact hfree j hold)
  exact hdata

/-- What is read from the inode `n`, from an offset on. Before each read the jobs have some more
turns, and a read returns so many bytes, or what there is. -/
def readOn (p : Pool os ι (Except Errno Unit)) (n : Nat) :
    (offset : Nat) → List (List (ι × Choice) × Nat) → Str
  | _, [] => []
  | offset, (turns, count) :: rest =>
      let p' := p.run turns
      let piece := ((p'.state.data n).drop offset).take count
      piece ++ readOn p' n (offset + piece.length) rest

/-- How many bytes the reads ask for. -/
def asked : List (List (ι × Choice) × Nat) → Nat
  | [] => 0
  | (_, count) :: rest => count + asked rest

theorem readOn_settled {p : Pool os ι (Except Errno Unit)} {n : Nat} {content : Str}
    (h : ∀ turns, (p.run turns).state.data n = content) (offset : Nat)
    (reads : List (List (ι × Choice) × Nat)) :
    readOn p n offset reads = (content.drop offset).take (asked reads) := by
  induction reads generalizing p offset with
  | nil => simp [readOn, asked]
  | cons read reads ih =>
    obtain ⟨turns, count⟩ := read
    have hrest : ∀ turns', ((p.run turns).run turns').state.data n = content := by
      intro turns'
      have happ : (p.run turns).run turns' = p.run (turns ++ turns') := List.foldl_append.symm
      rw [happ]
      exact h _
    simp only [readOn, h turns, ih hrest, asked]
    rw [List.take_add, List.length_take, ← List.drop_drop]
    by_cases hcount : count ≤ (content.drop offset).length
    · rw [Nat.min_eq_left hcount]
    · have hshort : (content.drop offset).length ≤ count := by omega
      rw [Nat.min_eq_right hshort, List.drop_length, List.drop_eq_nil_of_le hshort]

/-- **A download gives one version.** Uploads and folder tasks are interleaved by their system
calls, with any failures. A download opens a file at some moment and reads it piece by piece while
they go on. What it gets are the first bytes, as many as it reads, of what stood there when it was
opened; and that is what stood there at the start, or the whole content of one upload to the same
place. -/
theorem download_one_version (s : LocalStorage) (job : ι → Job)
    (hnames : ∀ i, ¬ TempName (locate (s.full (job i).path))) (t : FS)
    (turns : List (ι × Choice)) (path : Str) (hpath : ¬ TempName (locate (s.full path)))
    (choice : Choice) (h : Handle) (n : Nat)
    (hopen : (((jobs s job t).run turns).state.openFile choice (s.full path)).1 = .ok h)
    (hfile : h.node = .file n) (reads : List (List (ι × Choice) × Nat)) :
    ∃ content, s.open_ choice path ((jobs s job t).run turns).state = .ok (.file content) ∧
      readOn ((jobs s job t).run turns) n 0 reads = content.take (asked reads) ∧
      (t.look (locate (s.full path)) = some (.file content) ∨
        ∃ i target r, job i = .upload target r ∧ locate (s.full target) = locate (s.full path) ∧
          Whole r content) := by
  have hn : ((jobs s job t).run turns).state.node (locate (s.full path)) = some (.file n) := by
    rcases FS.openFile_cases ((jobs s job t).run turns).state choice (s.full path) with
      ⟨e, heq⟩ | ⟨node, hnode, heq⟩
    · rw [heq] at hopen
      cases hopen
    · rw [heq] at hopen
      cases hopen
      rw [hnode, ← hfile]
  refine ⟨((jobs s job t).run turns).state.data n, ?_, ?_, ?_⟩
  · rw [LocalStorage.open_, hopen]
    simp only [Except.map, FS.shown, hfile]
  · exact readOn_settled (fun rest => opened_unchanged hnames t turns rest hpath hn) 0 reads
  · have hlook := look_file hn
    rcases jobs_oldOrWritten hnames t turns hpath with
      hold | ⟨_, hdir⟩ | ⟨i, content, hi, hwhole, hnew⟩
    · exact Or.inl (hold ▸ hlook)
    · rw [hlook] at hdir
      cases hdir
    · rw [hlook] at hnew
      cases hnew
      obtain ⟨target, r, hjob, hr⟩ := Job.upload_of_whole hwhole
      refine Or.inr ⟨i, target, r, hjob, ?_, hr⟩
      simp only [hjob] at hi
      exact hi

end

/-- An upload from its first system call to its last one. -/
def uninterrupted (b : Bool) (rand : Str) : List (Bool × Choice) :=
  [(b, .smooth []), (b, .smooth rand), (b, .smooth []), (b, .smooth []), (b, .smooth [])]

theorem not_tempName_a : ¬ TempName (locate (LocalStorage.full ⟨str "/srv"⟩ (str "/a"))) := by
  decide

/-- The file is replaced between the opening and the first read. -/
theorem download_one_version_replaced :
    let p := jobs ⟨str "/srv"⟩ (fun b => .upload (str "/a") (twoReaders b)) FS.empty
    (p.run (uninterrupted false (str "1") ++ uninterrupted true (str "2"))).state.look
        (locate (str "/srv/a")) = some (.file (str "x")) ∧
      ∃ content, LocalStorage.open_ ⟨str "/srv"⟩ (.smooth []) (str "/a")
          (p.run (uninterrupted false (str "1"))).state = .ok (.file content) ∧
        readOn (p.run (uninterrupted false (str "1"))) 1 0
          [(uninterrupted true (str "2"), 1), ([], 10)] = content.take 11 ∧
        (FS.empty.look (locate (str "/srv/a")) = some (.file content) ∨
          ∃ (i : Bool) (target : Str) (r : Reader), Job.upload (str "/a") (twoReaders i) =
              .upload target r ∧
            locate (LocalStorage.full ⟨str "/srv"⟩ target) = locate (str "/srv/a") ∧
            Whole r content) :=
  ⟨by decide +kernel, download_one_version ⟨str "/srv"⟩
    (fun b => .upload (str "/a") (twoReaders b)) (fun _ => not_tempName_a) FS.empty
    (uninterrupted false (str "1")) (str "/a") not_tempName_a (.smooth [])
    ⟨.file 1, str "/srv/a"⟩ 1 rfl rfl [(uninterrupted true (str "2"), 1), ([], 10)]⟩

end FileEngine.Local
