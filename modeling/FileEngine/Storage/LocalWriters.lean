import FileEngine.Go.Interleave
import FileEngine.Storage.Local

/-!
# Concurrent writes to local storage

Any number of `AtomicWrite` calls run side by side, one system call at a time and each
of them allowed to fail. A writer owns its temporary file from the moment `CreateTemp`
has made it: the file is new, so no other writer has it, and it is not the target of
anyone. Until the rename, nothing that a writer does is seen outside of its temporary
file, and the rename puts the finished file at the target in one step. No branch with an
error reaches the rename.
-/

namespace FileEngine.Local

open Go Os

/-- How far a writer is: before its temporary file exists, while it owns that file, and
after the rename. -/
inductive Stage
  | start
  | temp (l : Loc) (ino : Nat)
  | installed

/-- What one system call of a writer does. -/
inductive Does (Temp : Loc → Prop) (target : Loc) (r : Reader) : Stage → FS → Stage → FS → Prop
  | dirs {g : Stage} {t t' : FS} (way : Loc) : AddsDirs way t t' → Does Temp target r g t g t'
  | create {t : FS} {l : Loc} (hv : t.Vacant l) : Temp l →
      Does Temp target r .start t (.temp l t.next) (t.insert l false hv)
  | write {t : FS} {l : Loc} {i : Nat} (content : Str) :
      Does Temp target r (.temp l i) t (.temp l i) (t.write i content)
  | install {t : FS} {l : Loc} {i : Nat} (h : t.Movable l target) :
      t.node target ≠ some .dir → Whole r (t.data i) →
      Does Temp target r (.temp l i) t .installed (t.rename l target h)

/-- A file that is neither the temporary file of the writer nor its target is left alone. -/
theorem Does.sameAt {Temp : Loc → Prop} {target : Loc} {r : Reader} {g g' : Stage} {t t' : FS}
    (h : Does Temp target r g t g' t') (hown : ∀ l i, g = .temp l i → t.node l = some (.file i))
    {k : Loc} (hk : t.node k ≠ none) (htemp : ∀ i, g ≠ .temp k i) (htarget : k ≠ target) :
    SameAt k t t' := by
  cases h with
  | dirs way hdirs => exact (hdirs k).resolve_right fun hnew => hk hnew.2.1
  | create hv _ =>
    apply sameAt_insert
    rintro rfl
    exact hk hv.new
  | @write _ l i content =>
    apply sameAt_write
    intro hki
    have hkl := t.single k l i hki (hown l i rfl)
    exact htemp i (by rw [hkl])
  | @install _ l i hm hdst _ =>
    refine sameAt_rename_file (hown l i rfl) hdst ?_ htarget
    rintro rfl
    exact htemp i rfl

section

variable {ι : Type} {Temp : ι → Loc → Prop} {target : ι → Loc} {r : ι → Reader}

/-- Every writer that has a temporary file has it for itself. -/
structure Owns (Temp : ι → Loc → Prop) (γ : ι → Stage) (t : FS) : Prop where
  file : ∀ i l n, γ i = .temp l n → t.node l = some (.file n)
  temp : ∀ i l n, γ i = .temp l n → Temp i l
  disjoint : ∀ i j l n m, γ i = .temp l n → γ j = .temp l m → i = j

/-- The temporary file of a writer stays as the writer left it. -/
def Untouched (g : Stage) (t t' : FS) : Prop :=
  ∀ l n, g = .temp l n → t.node l = some (.file n) → SameAt l t t'

theorem Untouched.trans {g : Stage} {t t' t'' : FS} (h : Untouched g t t')
    (h' : Untouched g t' t'') : Untouched g t t'' := by
  intro l n hg hl
  have hsame := h l n hg hl
  exact hsame.trans (h' l n hg (hsame.1.trans hl))

theorem Owns.others (hnames : ∀ i l, Temp i l → ∀ j, l ≠ target j) {γ : ι → Stage} {t : FS}
    (h : Owns Temp γ t) {i : ι} {g' : Stage} {t' : FS}
    (hdoes : Does (Temp i) (target i) (r i) (γ i) t g' t') {j : ι} (hj : j ≠ i) :
    Untouched (γ j) t t' := by
  intro l n hg hl
  refine hdoes.sameAt (h.file i) (by simp [hl]) (fun m hm => ?_) (hnames j l (h.temp j l n hg) i)
  exact hj (h.disjoint j i l n m hg hm)

/-- What a reader of the tree can find at `l`, in terms of the tree at the start. -/
def OldOrWritten (target : ι → Loc) (r : ι → Reader) (t t' : FS) (l : Loc) : Prop :=
  t'.look l = t.look l ∨ (t.look l = none ∧ t'.look l = some .dir) ∨
    ∃ i content, target i = l ∧ Whole (r i) content ∧ t'.look l = some (.file content)

theorem OldOrWritten.next {t t' t'' : FS} {l : Loc} (h : OldOrWritten target r t t' l)
    (hnext : OldOrWritten target r t' t'' l) : OldOrWritten target r t t'' l := by
  rcases hnext with hsame | ⟨hnone, hdir⟩ | hwritten
  · unfold OldOrWritten
    rw [hsame]
    exact h
  · rcases h with hsame | ⟨_, hdir'⟩ | ⟨_, _, _, _, hfile⟩
    · exact Or.inr (Or.inl ⟨hsame ▸ hnone, hdir⟩)
    · rw [hdir'] at hnone
      cases hnone
    · rw [hfile] at hnone
      cases hnone
  · exact Or.inr (Or.inr hwritten)

variable [DecidableEq ι]

theorem Owns.next (hnames : ∀ i l, Temp i l → ∀ j, l ≠ target j) {γ : ι → Stage} {t : FS}
    (h : Owns Temp γ t) {i : ι} {g' : Stage} {t' : FS}
    (hdoes : Does (Temp i) (target i) (r i) (γ i) t g' t') :
    Owns Temp (Function.update γ i g') t' := by
  -- the writers other than `i`
  have hothers : ∀ j, j ≠ i → ∀ l n, γ j = .temp l n → t'.node l = some (.file n) := by
    intro j hj l n hg
    have hl := h.file j l n hg
    exact (h.others hnames hdoes hj l n hg hl).1.trans hl
  -- the writer `i` itself
  have hself : ∀ l n, g' = .temp l n → t'.node l = some (.file n) ∧ Temp i l ∧
      ∀ j m, j ≠ i → γ j ≠ .temp l m := by
    intro l n hg'
    generalize hgi : γ i = gi at hdoes
    cases hdoes with
    | dirs way hdirs =>
      subst hg'
      refine ⟨(hdirs.file (h.file i l n hgi)).1, h.temp i l n hgi, fun j m hj hg => hj ?_⟩
      exact h.disjoint j i l m n hg hgi
    | create hv htemp =>
      cases hg'
      refine ⟨by simp [FS.insert], htemp, fun j m hj hg => ?_⟩
      have hfile := h.file j l m hg
      rw [hv.new] at hfile
      cases hfile
    | write content =>
      cases hg'
      refine ⟨h.file i l n hgi, h.temp i l n hgi, fun j m hj hg => hj ?_⟩
      exact h.disjoint j i l m n hg hgi
    | install hm hdst hwhole => cases hg'
  refine ⟨fun j l n hg => ?_, fun j l n hg => ?_, fun j j' l n m hg hg' => ?_⟩
  · rcases of_update (R := (· = Stage.temp l n)) hg with ⟨_, hnew⟩ | ⟨hj, hold⟩
    · exact (hself l n hnew).1
    · exact hothers j hj l n hold
  · rcases of_update (R := (· = Stage.temp l n)) hg with ⟨rfl, hnew⟩ | ⟨_, hold⟩
    · exact (hself l n hnew).2.1
    · exact h.temp j l n hold
  · refine owner_update (R := fun g l => ∃ n, g = Stage.temp l n) ?_ ?_ ⟨n, hg⟩ ⟨m, hg'⟩
    · rintro j j' l ⟨n, hn⟩ ⟨m, hm⟩
      exact h.disjoint j j' l n m hn hm
    · rintro l ⟨n, hn⟩ j hj ⟨m, hm⟩
      exact (hself l n hn).2.2 j m hj hm

/-- The agreement of the writers. -/
def writing (Temp : ι → Loc → Prop) (target : ι → Loc) (r : ι → Reader)
    (hnames : ∀ i l, Temp i l → ∀ j, l ≠ target j) : Protocol os ι Stage where
  Rely _ := Untouched
  Guar i := Does (Temp i) (target i) (r i)
  Inv := Owns Temp
  rely_refl _ _ t l _ _ _ := .refl l t
  rely_trans _ _ _ _ _ := Untouched.trans
  stutter _ _ t := .dirs [] (.refl t)
  step _ _ _ _ _ hinv hdoes := ⟨hinv.next hnames hdoes, fun _ hj => hinv.others hnames hdoes hj⟩

/-! ## What others can see -/

/-- Outside of the temporary files of the writer, only directories may have been added. -/
def Quiet (Temp : Loc → Prop) (t t' : FS) : Prop :=
  ∀ k, ¬ Temp k → t'.look k = t.look k ∨ (t.look k = none ∧ t'.look k = some .dir)

/-- The target holds the whole content of the reader, and outside of the target and the
temporary files nothing is changed. -/
def Installs (Temp : Loc → Prop) (target : Loc) (r : Reader) (t t' : FS) : Prop :=
  (∃ content, Whole r content ∧ t'.look target = some (.file content)) ∧
    ∀ k, k ≠ target → ¬ Temp k → t'.look k = t.look k

theorem writing_commitPoint (hnames : ∀ i l, Temp i l → ∀ j, l ≠ target j) :
    (writing Temp target r hnames).CommitPoint (· = Stage.installed) (fun i => Quiet (Temp i))
      (fun i => Installs (Temp i) (target i) (r i)) where
  quiet γ t i g' t' hinv hdoes hdone k hk := by
    have hown : Owns Temp γ t := hinv
    change Does (Temp i) (target i) (r i) (γ i) t g' t' at hdoes
    generalize hgi : γ i = gi at hdoes hdone
    cases hdoes with
    | dirs way hdirs => exact (hdirs.look k).imp_right fun hnew => hnew.2
    | create hv htemp =>
      refine Or.inl (FS.look_insert_of_ne ?_)
      rintro rfl
      exact hk htemp
    | @write _ l n content =>
      refine Or.inl (SameAt.look (sameAt_write fun hkn => hk ?_))
      rw [t.single k l n hkn (hown.file i l n hgi)]
      exact hown.temp i l n hgi
    | install hm hdst hwhole => cases hdone rfl
  commit γ t i g' t' hinv hdoes hstart hdone := by
    have hown : Owns Temp γ t := hinv
    change Does (Temp i) (target i) (r i) (γ i) t g' t' at hdoes
    generalize hgi : γ i = gi at hdoes hstart
    cases hdoes with
    | dirs way hdirs => exact absurd hdone hstart
    | create hv htemp => cases hdone
    | write content => cases hdone
    | @install _ l n hm hdst hwhole =>
      have hfile := hown.file i l n hgi
      refine ⟨⟨t.data n, hwhole, ?_⟩, fun k hk htemp => ?_⟩
      · rw [FS.look_rename_dst]
        exact look_file hfile
      · refine FS.look_rename_file hfile hdst ?_ hk
        rintro rfl
        exact htemp (hown.temp i k n hgi)
  keeps i g t g' t' hdoes hdone := by
    subst hdone
    cases hdoes with
    | dirs way hdirs => rfl

/-! ## The program of a writer -/

/-- The temporary file with its content. -/
def Holding (l : Loc) (n : Nat) (content : Str) (t : FS) : Prop :=
  t.node l = some (.file n) ∧ t.data n = content

theorem Holding.of_untouched {l : Loc} {n : Nat} {content : Str} {t t' : FS}
    (h : Holding l n content t) (hsame : Untouched (.temp l n) t t') : Holding l n content t' := by
  obtain ⟨hnode, hdata⟩ := hsame l n rfl h.1
  exact ⟨hnode.trans h.1, (hdata n h.1).trans h.2⟩

/-- Only files that count as temporary are created. -/
def TempOnly (Temp : Loc → Prop) (_ : FS) (e : Effect) : Prop := ∀ l, e = .created l false → Temp l

variable {hnames : ∀ i l, Temp i l → ∀ j, l ≠ target j} {A : FS → Effect → Prop} {i : ι}

theorem follows_writeAt {l : Loc} {n : Nat} {written bytes : Str} {tmp : Handle} {t : FS}
    (htmp : tmp.node = .file n) (h : Holding l n written t)
    {Q : Except Errno Unit → Stage → FS → Prop}
    (hok : ∀ t', Holding l n (written ++ bytes) t' → Q (.ok ()) (.temp l n) t')
    (herr : ∀ e t' content, Holding l n content t' → Q (.error e) (.temp l n) t') :
    (writing Temp target r hnames).Follows A i Q (writeAt tmp written.length bytes)
      (.temp l n) t := by
  refine Protocol.follows_call fun t' hrely choice res t'' effects hexec _ => ?_
  have hnow : Holding l n written t' := h.of_untouched hrely
  change t'.writeAt choice tmp written.length bytes = _ at hexec
  have hdata : ∀ content, (FS.write t' n content).data n = content := by
    intro content
    simp [FS.write]
  rcases writeAt_file t' choice htmp written.length bytes with
    ⟨e, steps, _, heq⟩ | ⟨_, heq⟩
  · cases heq.symm.trans hexec
    exact ⟨_, .write _, herr e _ _ ⟨hnow.1, hdata _⟩⟩
  · cases heq.symm.trans hexec
    refine ⟨_, .write _, hok _ ⟨hnow.1, ?_⟩⟩
    rw [hdata, hnow.2, overlay_length]

theorem follows_copyChunks {l : Loc} {n : Nat} {tmp : Handle} (htmp : tmp.node = .file n)
    (chunks : List Str) {written : Str} {t : FS} (h : Holding l n written t) :
    (writing Temp target r hnames).Follows A i
      (fun res g t' => g = .temp l n ∧ ∃ content, Holding l n content t' ∧
        (res = .ok () → content = written ++ chunks.flatten))
      (LocalStorage.copyChunks tmp written.length chunks).run (.temp l n) t := by
  induction chunks generalizing written t with
  | nil => exact ⟨rfl, written, h, fun _ => by simp⟩
  | cons chunk chunks ih =>
    have hrest : ∀ t', Holding l n (written ++ chunk) t' →
        (writing Temp target r hnames).Follows A i
          (fun res g t' => g = .temp l n ∧ ∃ content, Holding l n content t' ∧
            (res = .ok () → content = written ++ (chunk :: chunks).flatten))
          (LocalStorage.copyChunks tmp (written.length + chunk.length) chunks).run
          (.temp l n) t' := by
      intro t' h'
      have hih := ih h'
      rw [List.length_append, List.append_assoc] at hih
      exact hih
    unfold LocalStorage.copyChunks
    split
    · refine Protocol.follows_bindE (follows_writeAt htmp h hrest fun e t' content h' => ?_)
      exact ⟨rfl, content, h', fun hok => by cases hok⟩
    · rename_i hempty
      obtain rfl : chunk = [] := by simpa using hempty
      exact hrest t (by simpa using h)

theorem follows_ioCopy {l : Loc} {n : Nat} {tmp : Handle} (htmp : tmp.node = .file n)
    {t : FS} (h : Holding l n [] t) (reads : Reads) :
    (writing Temp target r hnames).Follows A i
      (fun res g t' => g = .temp l n ∧ ∃ content, Holding l n content t' ∧
        (res = .ok () → reads.err = .eof ∧ content = reads.bytes))
      (LocalStorage.ioCopy tmp reads).run (.temp l n) t := by
  refine Protocol.follows_bindE (Protocol.follows_mono (fun res g t' hres => ?_)
    (follows_copyChunks htmp (reads.chunks ++ [reads.last]) h))
  obtain ⟨rfl, content, hholding, hcontent⟩ := hres
  cases res with
  | error e => exact ⟨rfl, content, hholding, fun hok => by cases hok⟩
  | ok _ =>
    have hbytes : content = reads.bytes := by simpa [Reads.bytes] using hcontent rfl
    cases herr : reads.err with
    | eof => exact ⟨rfl, content, hholding, fun _ => ⟨rfl, hbytes⟩⟩
    | other message => exact ⟨rfl, content, hholding, fun hok => by cases hok⟩

theorem follows_closeFile {tmp : Handle} {l : Loc} {n : Nat} {content : Str} {t : FS}
    (h : Holding l n content t) {Q : Except Errno Unit → Stage → FS → Prop}
    (hQ : ∀ t', Holding l n content t' → Q (.ok ()) (.temp l n) t') :
    (writing Temp target r hnames).Follows A i Q (closeFile tmp) (.temp l n) t := by
  intro t' hrely choice _
  have hsame : (exec (.closeFile tmp) choice t').2.1 = t' := by
    obtain ⟨res, heq⟩ := t'.closeFile_cases choice tmp
    simp only [exec, heq]
  refine ⟨.temp l n, ?_, ?_⟩
  · show Does _ _ _ _ _ _ (exec (.closeFile tmp) choice t').2.1
    rw [hsame]
    exact .dirs [] (.refl t')
  · show Q (.ok ()) _ (exec (.closeFile tmp) choice t').2.1
    rw [hsame]
    exact hQ t' (h.of_untouched hrely)

theorem follows_rename {old new : Str} {n : Nat} {content : Str} {t : FS}
    (hnew : locate new = target i) (htemp : Temp i (locate old))
    (h : Holding (locate old) n content t) (hwhole : Whole (r i) content) :
    (writing Temp target r hnames).Follows A i
      (fun res g _ => res = .ok () ↔ g = .installed) (rename old new) (.temp (locate old) n) t := by
  refine Protocol.follows_call fun t' hrely choice res t'' effects hexec _ => ?_
  have hnow : Holding (locate old) n content t' := h.of_untouched hrely
  change t'.renamePath choice old new = _ at hexec
  rcases t'.renamePath_cases choice old new with ⟨e, heq⟩ | ⟨hsame, heq⟩ | ⟨hm, hdst, heq⟩
  · cases heq.symm.trans hexec
    exact ⟨_, .dirs [] (.refl t'), by simp⟩
  · exact absurd (hsame.trans hnew) (hnames i _ htemp i)
  · cases heq.symm.trans hexec
    rw [hnew] at hm hdst
    refine ⟨.installed, ?_, by simp⟩
    show Does (Temp i) (target i) (r i) (.temp (locate old) n) t' .installed _
    simp only [hnew]
    exact .install hm hdst (hnow.2 ▸ hwhole)

/-- A writer keeps the agreement, and ends without an error exactly if it has installed its
content. -/
theorem follows_atomicWrite (s : LocalStorage) (path : Str)
    (htarget : target i = locate (s.full path)) (t : FS) :
    (writing Temp target r hnames).Follows (TempOnly (Temp i)) i
      (fun res g _ => res = .ok () ↔ g = .installed) (s.atomicWrite path (r i)).run .start t := by
  refine Protocol.follows_bindE (Protocol.follows_call fun t₁ _ choice made t₁' _ hexec _ => ?_)
  change t₁.mkdirAll choice (dir (s.full path)) = _ at hexec
  have hdirs := addsDirs_mkdirAll t₁ choice (dir (s.full path))
  rw [hexec] at hdirs
  refine ⟨.start, .dirs _ hdirs, ?_⟩
  cases made with
  | error e => simp
  | ok _ =>
    refine Protocol.follows_bindE (Protocol.follows_call fun t₂ _ choice created t₂' effects hexec
      heff => ?_)
    change t₂.createTemp choice (dir (s.full path)) (str ".tmp-") = _ at hexec
    rcases t₂.createTemp_cases choice (dir (s.full path)) (str ".tmp-") with
      ⟨e, heq⟩ | ⟨name, hv, _, heq⟩
    · cases heq.symm.trans hexec
      exact ⟨.start, .dirs [] (.refl t₂), by simp⟩
    · cases heq.symm.trans hexec
      have htemp : Temp i (locate (dir (s.full path)) ++ [name]) :=
        heff _ List.mem_cons_self _ rfl
      refine ⟨_, .create hv htemp, ?_⟩
      have hnew : Holding (locate (dir (s.full path)) ++ [name]) t₂.next []
          (t₂.insert _ false hv) := by
        constructor <;> simp [FS.insert]
      refine Protocol.follows_bindE (Protocol.follows_attempt (Protocol.follows_mono
        (fun copied g t₃ hcopied => ?_) (follows_ioCopy rfl hnew (r i (32 * 1024)))))
      obtain ⟨rfl, content, hholding, hcontent⟩ := hcopied
      cases copied with
      | error e =>
        exact Protocol.follows_bindE (follows_closeFile hholding fun t' _ => by
          show (Except.error e = Except.ok () ↔ _)
          simp)
      | ok _ =>
        refine Protocol.follows_bindE (follows_closeFile hholding fun t' hholding' => ?_)
        have hloc := FS.locate_joinPath (dir (s.full path)) name
        rw [← hloc] at htemp hholding' ⊢
        exact follows_rename htarget.symm htemp hholding' (hcontent rfl)

/-! ## All interleavings -/

/-- Calls of `AtomicWrite` side by side on one tree. -/
def writers (s : LocalStorage) (path : ι → Str) (r : ι → Reader) (t : FS) :
    Pool os ι (Except Errno Unit) :=
  ⟨fun i => (s.atomicWrite (path i) (r i)).run, t⟩

/-- A file that `CreateTemp` made for the call `i`. -/
def TempOf (p : Pool os ι (Except Errno Unit)) (sched : List (ι × Choice)) (i : ι) (l : Loc) :
    Prop :=
  ∃ t, (i, t, Effect.created l false) ∈ p.log sched

theorem writers_holds (s : LocalStorage) (path : ι → Str) (r : ι → Reader) (t : FS)
    (hnames : ∀ i l, Temp i l → ∀ j, l ≠ locate (s.full (path j))) :
    (writing Temp (fun i => locate (s.full (path i))) r hnames).Holds
      (fun i => TempOnly (Temp i)) (fun _ res g => res = .ok () ↔ g = .installed)
      (fun _ => .start) (writers s path r t) where
  inv := by constructor <;> simp
  follows i := by
    refine follows_atomicWrite s (path i) ?_ t
    rfl

/-- **Concurrent writes to local storage are atomic.** After every interleaving of the
system calls of any number of writers, with any failures: a file that is not temporary
holds what it held at the start, or the whole content of a writer to that path; a call
that returned `nil` installed its whole content in one of its steps, and changed nothing
else in the others; a call that returned an error installed nothing. -/
theorem atomicWrites_atomic (s : LocalStorage) (path : ι → Str) (r : ι → Reader) (t : FS)
    (sched : List (ι × Choice))
    (hnames : ∀ i l, TempOf (writers s path r t) sched i l → ∀ j, l ≠ locate (s.full (path j))) :
    (∀ l, (∀ i, ¬ TempOf (writers s path r t) sched i l) →
      OldOrWritten (fun i => locate (s.full (path i))) r t
        ((writers s path r t).run sched).state l) ∧
    (∀ i, ((writers s path r t).run sched).progs i = .ret (.ok ()) →
      (writers s path r t).CommitsOnce (fun j => Quiet (TempOf (writers s path r t) sched j))
        (fun j => Installs (TempOf (writers s path r t) sched j) (locate (s.full (path j))) (r j))
        sched i) ∧
    ∀ i e, ((writers s path r t).run sched).progs i = .ret (.error e) →
      (writers s path r t).AllQuiet (fun j => Quiet (TempOf (writers s path r t) sched j)) sched i := by
  have hallowed : (writers s path r t).Allowed
      (fun i => TempOnly (TempOf (writers s path r t) sched i)) sched := by
    intro i t' e he l hl
    exact ⟨t', hl ▸ he⟩
  obtain ⟨γ, hcommitted, hholds⟩ := Protocol.run_commits (writing_commitPoint hnames)
    (writers_holds s path r t hnames) (by simp) hallowed
  refine ⟨fun l hl => ?_, fun i hret => ?_, fun i e hret => ?_⟩
  · refine Pool.run_invariant
      (J := fun t' => OldOrWritten (fun i => locate (s.full (path i))) r t t' l) (Or.inl rfl)
      hcommitted.turns ?_ ?_
    · intro i t' t'' h hquiet
      rcases hquiet l (hl i) with hsame | hdir
      · exact h.next (Or.inl hsame)
      · exact h.next (Or.inr (Or.inl hdir))
    · rintro i t' t'' h ⟨⟨content, hwhole, hlook⟩, hothers⟩
      by_cases hli : l = locate (s.full (path i))
      · exact Or.inr (Or.inr ⟨i, content, hli.symm, hwhole, hli ▸ hlook⟩)
      · exact h.next (Or.inl (hothers l hli (hl i)))
  · exact hcommitted.once i ((hholds.ended hret).mp rfl)
  · exact hcommitted.quiet i fun hdone => nomatch (hholds.ended hret).mpr hdone

end

/-- Two writers to `/a`, and the second one overtakes the first. -/
def overtaking : List (Bool × Choice) :=
  [(true, .smooth []), (false, .smooth []), (true, .smooth (str "1")), (false, .smooth (str "2")),
    (false, .smooth []), (true, .smooth []), (false, .smooth []), (false, .smooth []),
    (true, .smooth []), (true, ⟨some (0, .busy), [], []⟩)]

def twoReaders (b : Bool) : Reader := fun _ => ⟨[if b then str "x" else str "yz"], [], .eof⟩

theorem atomicWrites_overtaking :
    ((writers ⟨str "/srv"⟩ (fun _ => str "/a") twoReaders FS.empty).run overtaking).state.look
        (locate (str "/srv/a")) = some (.file (str "yz")) ∧
      (writers ⟨str "/srv"⟩ (fun _ => str "/a") twoReaders FS.empty).AllQuiet
        (fun j => Quiet (TempOf (writers ⟨str "/srv"⟩ (fun _ => str "/a") twoReaders FS.empty)
          overtaking j)) overtaking true := by
  have hnames : ∀ i l, TempOf (writers ⟨str "/srv"⟩ (fun _ => str "/a") twoReaders FS.empty)
      overtaking i l → ∀ j : Bool, l ≠ locate (LocalStorage.full ⟨str "/srv"⟩ (str "/a")) := by
    have hall : ∀ x ∈ (writers ⟨str "/srv"⟩ (fun _ => str "/a") twoReaders FS.empty).log
        overtaking, x.2.2 ≠ .created (locate (LocalStorage.full ⟨str "/srv"⟩ (str "/a"))) false := by
      decide
    rintro i l ⟨t, hl⟩ j he
    exact hall _ hl (by rw [he])
  refine ⟨by decide, (atomicWrites_atomic ⟨str "/srv"⟩ (fun _ => str "/a") twoReaders FS.empty
    overtaking hnames).2.2 true .busy ?_⟩
  rfl

end FileEngine.Local
