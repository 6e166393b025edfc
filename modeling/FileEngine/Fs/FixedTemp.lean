import FileEngine.Go.Interleave
import FileEngine.Storage.Local

/-!
# Writes through a fixed temporary name

`internal/fs/local_fs.go`. `AtomicWrite` writes to the path of the target with `.tmp`
behind it and renames the result, and drops the errors of all calls but the last. So a
rename follows every failure, and two writes of one path share their temporary file.

`atomicWrites_whole_iff` says where no harm can come of this: where nothing can be
renamed to the target at all, and where there is nothing to write.
-/

namespace FileEngine.InternalFs

open Go Os Local

structure LocalFS where
  base : Str

namespace LocalFS

def full (l : LocalFS) (p : Str) : Str := join [l.base, clean ([slash] ++ p)]

def createFolder (l : LocalFS) (p : Str) : OsM Unit := mkdirAll (l.full p)

/-- `io.Copy` to the result of `os.Create`, and `Close`. Without a file both fail before they
do anything. -/
def fill (r : Reader) : Except Errno Handle → OsM Unit
  | .error _ => return
  | .ok o => do
      let _ ← Prog.attempt (LocalStorage.ioCopy o (r (32 * 1024)))
      closeFile o

def atomicWrite (l : LocalFS) (p : Str) (r : Reader) : OsM Unit := do
  let f := l.full p
  let t := f ++ str ".tmp"
  let o ← Prog.attempt (create t)
  fill r o
  rename t f

end LocalFS

/-! ## The two locations -/

def LocalFS.target (l : LocalFS) (p : Str) : Loc := locate (l.full p)

def LocalFS.temp (l : LocalFS) (p : Str) : Loc := locate (l.full p ++ str ".tmp")

theorem isName_tmp {c : Str} (hc : slash ∉ c) : IsName (c ++ str ".tmp") := by
  have hlen : (c ++ str ".tmp").length = c.length + 4 := List.length_append
  refine ⟨by rintro he; simp [he] at hlen, fun he => ?_, fun he => ?_, ?_⟩
  · rw [he] at hlen
    simp [dot] at hlen
  · rw [he] at hlen
    simp [dotdot] at hlen
  · rw [List.mem_append, not_or]
    exact ⟨hc, by decide⟩

/-- Next to every target but the root, its temporary file has a name of its own. -/
theorem exists_temp (l : LocalFS) (p : Str) (h : l.target p ≠ []) :
    ∃ (d : Loc) (n m : Name), l.target p = d ++ [n] ∧ l.temp p = d ++ [m] ∧ n ≠ m := by
  obtain ⟨d, n, hd⟩ := (List.eq_nil_or_concat' (l.target p)).resolve_left h
  obtain ⟨cs, hcs, hresolve⟩ : ∃ cs, comps (l.full p) = cs ++ [n.val] ∧ resolve cs = d := by
    unfold LocalFS.target LocalFS.full join at *
    split at hd
    · exact absurd hd (by simp [locate])
    · rw [locate_clean] at hd
      exact exists_comps_clean hd
  have hname := isName_tmp n.isName.2.2.2
  refine ⟨d, n, ⟨_, hname⟩, hd, ?_, fun he => ?_⟩
  · rw [LocalFS.temp, locate, comps_append_plain hcs (by decide), resolve_concat_name _ hname,
      hresolve]
  · have hval : n.val = n.val ++ str ".tmp" := congrArg Name.val he
    exact absurd (List.self_eq_append_right.mp hval) (by decide)

theorem not_target_prefix_temp (l : LocalFS) {p : Str} (h : l.target p ≠ []) :
    ¬ l.target p <+: l.temp p ∧ ¬ l.temp p <+: l.target p := by
  obtain ⟨d, n, m, htarget, htemp, hne⟩ := exists_temp l p h
  rw [htarget, htemp, List.prefix_append_right_inj, List.prefix_append_right_inj]
  simp [hne, Ne.symm hne]

theorem temp_ne_target (l : LocalFS) (p : Str) : l.temp p ≠ l.target p := by
  by_cases h : l.target p = []
  · obtain ⟨cs, c, hcs⟩ := exists_comps_concat (l.full p)
    have hc : slash ∉ c := slash_not_mem_of_mem_comps (p := l.full p) (by simp [hcs])
    rw [h, LocalFS.temp, locate, comps_append_plain hcs (by decide),
      resolve_concat_name _ (isName_tmp hc)]
    simp
  · exact fun he => (not_target_prefix_temp l h).1 (he ▸ List.prefix_rfl)

/-! ## What is promised -/

/-- A step that moves the temporary file to the target, with the whole content of the reader. -/
def Installs (temp target : Loc) (r : Reader) (t t' : FS) : Prop :=
  (∃ h, t' = t.rename temp target h) ∧
    ∃ content, Whole r content ∧ t'.look target = some (.file content)

section

variable {ι : Type}

/-- At the target is what was there, or the whole content of one of the readers. -/
def Intact (target : Loc) (r : ι → Reader) (t t' : FS) : Prop :=
  t'.look target = t.look target ∨
    ∃ i content, Whole (r i) content ∧ t'.look target = some (.file content)

/-- Calls of `AtomicWrite` on one path, side by side. -/
def LocalFS.writers (l : LocalFS) (p : Str) (r : ι → Reader) (t : FS) :
    Pool os ι (Except Errno Unit) :=
  ⟨fun i => (l.atomicWrite p (r i)).run, t⟩

/-- Every call that has returned `nil` has installed the whole content of its reader in one of
its turns, and the target is intact. -/
def LocalFS.WritesWhole [DecidableEq ι] (l : LocalFS) (p : Str) (r : ι → Reader) (t : FS)
    (sched : List (ι × Choice)) : Prop :=
  (∀ i, ((l.writers p r t).run sched).progs i = .ret (.ok ()) →
    ∃ before choice, Pool.Turn sched before i choice ∧
      (l.writers p r t).TurnRel (fun j => Installs (l.temp p) (l.target p) (r j))
        before i choice) ∧
  Intact (l.target p) r t ((l.writers p r t).run sched).state

/-! ## Where it is kept -/

/-- Nothing can be renamed to the target: it is a directory, it has no directory, or it is a
file and the temporary file is a directory. -/
def Barred (temp target : Loc) (t : FS) : Prop :=
  t.node target = some .dir ∨ t.node target.dropLast ≠ some .dir ∨
    (t.node temp = some .dir ∧ t.node target ≠ none)

/-- There is no temporary file, or an empty one. -/
def Blank (temp : Loc) (t : FS) : Prop := t.look temp = none ∨ t.look temp = some (.file [])

variable {J : FS → Prop} {temp target : Loc} {l : LocalFS} {p : Str}

/-- The call keeps `J` and leaves the target alone. -/
def Spares (J : FS → Prop) (target : Loc) (c : os.Call) : Prop :=
  ∀ choice t, J t → J (os.exec c choice t).2.1 ∧
    (os.exec c choice t).2.1.look target = t.look target

/-- What the three calls on the paths of a write do where `J` holds. -/
structure Safe (J : FS → Prop) (l : LocalFS) (p : Str) (r : ι → Reader) : Prop where
  create : Spares J (l.target p) (.create (l.full p ++ str ".tmp"))
  write : ∀ choice t o t' effects, J t →
    t.create choice (l.full p ++ str ".tmp") = (.ok o, t', effects) →
    (∀ offset bytes, Spares J (l.target p) (.writeAt o offset bytes)) ∨
      ∀ i, (r i (32 * 1024)).bytes = []
  rename : ∀ choice t, J t →
    (∃ e, t.renamePath choice (l.full p ++ str ".tmp") (l.full p) = (.error e, t, [])) ∨
      ∃ t' effects,
        t.renamePath choice (l.full p ++ str ".tmp") (l.full p) = (.ok (), t', effects) ∧
          J t' ∧ ∀ i, Installs (l.temp p) (l.target p) (r i) t t'

/-- The target is a directory, or has none. -/
def NoRoom (target : Loc) (t : FS) : Prop :=
  t.node target = some .dir ∨ t.node target.dropLast ≠ some .dir

theorem NoRoom.ne_nil {t : FS} (h : t.node target.dropLast ≠ some .dir) : target ≠ [] := by
  rintro rfl
  exact h t.root

/-- Without room, what is at the target does not depend on any content. -/
theorem NoRoom.look {t t' : FS} (h : NoRoom target t) (hnode : t'.node target = t.node target) :
    t'.look target = t.look target := by
  refine FS.look_of_node hnode fun i hi => ?_
  rcases h with hdir | hparent
  · rw [hdir] at hi
    cases hi
  · refine absurd (t.parent target (NoRoom.ne_nil hparent) ?_) hparent
    simp [hi]

theorem NoRoom.write {t : FS} (h : NoRoom target t) (i : Nat) (content : Str) :
    NoRoom target (t.write i content) ∧ (t.write i content).look target = t.look target :=
  ⟨h, h.look rfl⟩

theorem safe_noRoom (r : ι → Reader) : Safe (NoRoom (l.target p)) l p r where
  create choice t ht := by
    show NoRoom _ (t.create choice _).2.1 ∧ (t.create choice _).2.1.look _ = _
    rcases t.create_cases choice (l.full p ++ str ".tmp") with ⟨e, heq⟩ | ⟨i, _, heq⟩ | ⟨hv, heq⟩
    · rw [heq]
      exact ⟨ht, rfl⟩
    · rw [heq]
      exact ht.write i []
    · rw [heq]
      have hdir : t.node (l.target p) = some .dir := by
        refine ht.resolve_right fun hparent => hparent ?_
        obtain ⟨d, n, m, htarget, htemp, _⟩ := exists_temp l p (NoRoom.ne_nil hparent)
        have hvd : t.node (l.temp p).dropLast = some .dir := hv.dir
        rw [htemp, List.dropLast_concat] at hvd
        rw [htarget, List.dropLast_concat, hvd]
      have hne := (temp_ne_target l p).symm
      refine ⟨Or.inl ?_, FS.look_insert_of_ne (h := hv) hne⟩
      exact (Function.update_of_ne hne _ _).trans hdir
  write choice t o t' effects _ _ := by
    refine Or.inl fun offset bytes choice t ht => ?_
    show NoRoom _ (t.writeAt choice _ _ _).2.1 ∧ (t.writeAt choice _ _ _).2.1.look _ = _
    rcases t.writeAt_cases choice o offset bytes with ⟨e, heq⟩ | ⟨i, res, content, _, heq⟩
    · rw [heq]
      exact ⟨ht, rfl⟩
    · rw [heq]
      exact ht.write i content
  rename choice t ht := by
    left
    rcases t.renamePath_cases choice (l.full p ++ str ".tmp") (l.full p) with
      herr | ⟨hsame, heq⟩ | ⟨hm, hdst, _⟩
    · exact herr
    · exact absurd hsame (temp_ne_target l p)
    · exact absurd hm.dir (ht.resolve_left hdst)

/-- A directory stands in the place of the temporary file, and something at the target. -/
def DirTemp (temp target : Loc) (t : FS) : Prop :=
  t.node temp = some .dir ∧ t.node target ≠ none

theorem safe_dirTemp (r : ι → Reader) : Safe (DirTemp (l.temp p) (l.target p)) l p r where
  create choice t ht := by
    have hdir : t.node (locate (l.full p ++ str ".tmp")) = some .dir := ht.1
    obtain ⟨e, heq⟩ := create_dir hdir choice
    show DirTemp _ _ (t.create choice _).2.1 ∧ (t.create choice _).2.1.look _ = _
    rw [heq]
    exact ⟨ht, rfl⟩
  write choice t o t' effects ht hcreate := by
    obtain ⟨e, heq⟩ := create_dir ht.1 choice
    cases heq.symm.trans hcreate
  rename choice t ht := Or.inl (renamePath_dir ht.1 ht.2 (temp_ne_target l p) choice)

theorem rename_temp_gone (h : l.target p ≠ []) {t : FS} (hm : t.Movable (l.temp p) (l.target p)) :
    (t.rename (l.temp p) (l.target p) hm).node (l.temp p) = none := by
  show t.movedNode _ _ _ = none
  simp [FS.movedNode, (not_target_prefix_temp l h).1]

theorem safe_blank (h : l.target p ≠ []) {r : ι → Reader} (hr : ∀ i, Whole (r i) []) :
    Safe (Blank (l.temp p)) l p r where
  create choice t ht := by
    have hne := (temp_ne_target l p).symm
    show Blank _ (t.create choice _).2.1 ∧ (t.create choice _).2.1.look _ = _
    rcases t.create_cases choice (l.full p ++ str ".tmp") with
      ⟨e, heq⟩ | ⟨i, hi, heq⟩ | ⟨hv, heq⟩
    · rw [heq]
      exact ⟨ht, rfl⟩
    · rw [heq]
      refine ⟨Or.inr (look_write_self hi []), (sameAt_write fun htarget => hne ?_).look⟩
      exact t.single _ _ i htarget hi
    · rw [heq]
      refine ⟨Or.inr ?_, FS.look_insert_of_ne (h := hv) hne⟩
      simp [FS.look, FS.insert, LocalFS.temp]
  write choice t o t' effects _ _ := Or.inr fun i => (hr i).2.symm
  rename choice t ht := by
    rcases t.renamePath_cases choice (l.full p ++ str ".tmp") (l.full p) with
      herr | ⟨hsame, _⟩ | ⟨hm, _, heq⟩
    · exact Or.inl herr
    · exact absurd hsame (temp_ne_target l p)
    · have hthere : t.look (l.temp p) ≠ none :=
        fun hnone => renamePath_ok heq (FS.look_eq_none.mp hnone)
      refine Or.inr ⟨_, _, heq, Or.inl ?_, fun i => ⟨⟨hm, rfl⟩, [], hr i, ?_⟩⟩
      · exact FS.look_eq_none.mpr (rename_temp_gone h hm)
      · exact FS.look_rename_dst.trans (ht.resolve_left hthere)

/-! ## Every schedule -/

variable [DecidableEq ι] {r : ι → Reader} {i : ι}

/-- Calls that keep `J`, and change the target only by an installation. -/
def sharing (J : FS → Prop) (temp target : Loc) (r : ι → Reader) : Protocol os ι Bool where
  Rely _ _ t t' := J t → J t'
  Guar i g t g' t' := (J t → J t') ∧ ((g' = g ∧ (J t → t'.look target = t.look target)) ∨
    (g = false ∧ g' = true ∧ Installs temp target (r i) t t'))
  Inv _ t := J t
  rely_refl _ _ _ := id
  rely_trans _ _ _ _ _ h h' := h' ∘ h
  stutter _ _ _ := ⟨id, Or.inl ⟨rfl, fun _ => rfl⟩⟩
  step _ _ _ _ _ hinv hguar := ⟨hguar.1 hinv, fun _ _ => hguar.1⟩

theorem sharing_commitPoint : (sharing J temp target r).CommitPoint (· = true)
    (fun _ t t' => t'.look target = t.look target)
    (fun i => Installs temp target (r i)) where
  quiet γ t i g' t' hinv hguar hdone := by
    rcases hguar.2 with ⟨_, hlook⟩ | ⟨hg, hg', _⟩
    · exact hlook hinv
    · rw [hdone hg'] at hg
      cases hg
  commit γ t i g' t' _ hguar hstart hdone := by
    rcases hguar.2 with ⟨hsame, _⟩ | ⟨_, _, hinstalls⟩
    · exact absurd (hsame ▸ hdone) hstart
    · exact hinstalls
  keeps i g t g' t' hguar hdone := by
    rcases hguar.2 with ⟨hsame, _⟩ | ⟨_, hg', _⟩
    · exact hsame.trans hdone
    · exact hg'

theorem follows_spared {α : Type} {A : FS → Effect → Prop} {c : os.Call} {g : Bool} {t : FS}
    (hc : Spares J target c) (ht : J t) {k : os.Reply c → Prog os α} {Q : α → Bool → FS → Prop}
    (hk : ∀ choice t', J t' → J (os.exec c choice t').2.1 →
      (sharing J temp target r).Follows A i Q (k (os.exec c choice t').1) g
        (os.exec c choice t').2.1) :
    (sharing J temp target r).Follows A i Q (Prog.step c k) g t := by
  intro t' hrely choice _
  have ht' : J t' := hrely ht
  obtain ⟨hJ, hlook⟩ := hc choice t' ht'
  exact ⟨g, ⟨fun _ => hJ, Or.inl ⟨rfl, fun _ => hlook⟩⟩, hk choice t' ht' hJ⟩

theorem spares_closeFile (o : Handle) : Spares J target (.closeFile o) := by
  intro choice t ht
  obtain ⟨res, heq⟩ := t.closeFile_cases choice o
  show J (t.closeFile choice o).2.1 ∧ (t.closeFile choice o).2.1.look target = _
  rw [heq]
  exact ⟨ht, rfl⟩

theorem follows_copyChunks {A : FS → Effect → Prop} {o : Handle} {chunks : List Str}
    (h : (∀ offset bytes, Spares J target (.writeAt o offset bytes)) ∨ chunks.flatten = [])
    (offset : Nat) {g : Bool} {t : FS} (ht : J t) :
    (sharing J temp target r).Follows A i (fun _ g' t' => g' = g ∧ J t')
      (LocalStorage.copyChunks o offset chunks).run g t := by
  induction chunks generalizing offset t with
  | nil => exact ⟨rfl, ht⟩
  | cons chunk chunks ih =>
    have hrest := h.imp_right fun hnil => (List.append_eq_nil_iff.mp hnil).2
    unfold LocalStorage.copyChunks
    split
    · rename_i hchunk
      have hwrite := h.resolve_right fun hnil => hchunk (List.append_eq_nil_iff.mp hnil).1
      refine Protocol.follows_bindE (follows_spared (hwrite offset chunk) ht
        fun choice t' _ hJ => ?_)
      generalize os.exec (Call.writeAt o offset chunk) choice t' = done at hJ ⊢
      obtain ⟨res, t'', _⟩ := done
      cases res with
      | ok _ => exact ih hrest _ hJ
      | error e => exact ⟨rfl, hJ⟩
    · exact ih hrest _ ht

theorem follows_fill {A : FS → Effect → Prop} {o : Handle}
    (h : (∀ offset bytes, Spares J target (.writeAt o offset bytes)) ∨
      (r i (32 * 1024)).bytes = []) {g : Bool} {t : FS} (ht : J t)
    {Q : Except Errno Unit → Bool → FS → Prop} (hQ : ∀ t', J t' → Q (.ok ()) g t') :
    (sharing J temp target r).Follows A i Q (LocalFS.fill (r i) (.ok o)).run g t := by
  have hchunks := h.imp_right fun hbytes => show ((r i (32 * 1024)).chunks ++
      [(r i (32 * 1024)).last]).flatten = [] by simpa [Reads.bytes] using hbytes
  refine Protocol.follows_bindE (Protocol.follows_attempt (Protocol.follows_bindE
    (Protocol.follows_mono (fun res g' t' hres => ?_) (follows_copyChunks hchunks 0 ht))))
  obtain ⟨rfl, hJ⟩ := hres
  have hclose : ∀ copied, (sharing J temp target r).Follows A i Q
      ((fun _ : Except Errno Unit => closeFile o) copied).run g' t' :=
    fun _ => follows_spared (spares_closeFile o) hJ fun choice t'' _ hJ'' => hQ _ hJ''
  cases res with
  | error e => exact hclose (.error e)
  | ok _ =>
    cases (r i (32 * 1024)).err with
    | eof => exact hclose (.ok ())
    | other message => exact hclose (.error (.other message))

theorem Safe.follows (h : Safe J l p r) {A : FS → Effect → Prop} {t : FS}
    (ht : J t) : (sharing J (l.temp p) (l.target p) r).Follows A i
      (fun res g _ => res = .ok () ↔ g = true) (l.atomicWrite p (r i)).run false t := by
  have hrename : ∀ t, J t → (sharing J (l.temp p) (l.target p) r).Follows A i
      (fun res g _ => res = .ok () ↔ g = true)
      (Os.rename (l.full p ++ str ".tmp") (l.full p)).run false t := by
    intro t ht
    refine Protocol.follows_call fun t' hrely choice res t'' effects hexec _ => ?_
    have ht' : J t' := hrely ht
    rcases h.rename choice t' ht' with ⟨e, heq⟩ | ⟨moved, _, heq, hJ, hinstalls⟩
    · cases heq.symm.trans hexec
      exact ⟨false, ⟨id, Or.inl ⟨rfl, fun _ => rfl⟩⟩, by simp⟩
    · cases heq.symm.trans hexec
      exact ⟨true, ⟨fun _ => hJ, Or.inr ⟨rfl, rfl, hinstalls i⟩⟩, by simp⟩
  refine Protocol.follows_bindE (Protocol.follows_attempt (follows_spared h.create ht
    fun choice t' ht' hJ => ?_))
  have hwrite := fun o t'' effects => h.write choice t' o t'' effects ht'
  change ∀ o t'' effects, os.exec (.create (l.full p ++ str ".tmp")) choice t' = _ → _ at hwrite
  generalize os.exec (.create (l.full p ++ str ".tmp")) choice t' = created at hwrite hJ ⊢
  obtain ⟨res, t'', effects⟩ := created
  refine Protocol.follows_bindE ?_
  cases res with
  | error e => exact hrename t'' hJ
  | ok o => exact follows_fill ((hwrite o t'' effects rfl).imp_right (· i)) hJ hrename

/-- Where `J` is safe, every schedule keeps the promise. -/
theorem Safe.writesWhole (h : Safe J l p r) {t : FS} (ht : J t)
    (sched : List (ι × Choice)) : l.WritesWhole p r t sched := by
  have hholds : (sharing J (l.temp p) (l.target p) r).Holds (fun _ _ _ => True)
      (fun _ res g => res = .ok () ↔ g = true) (fun _ => false) (l.writers p r t) :=
    ⟨ht, fun i => h.follows ht⟩
  have hallowed : (l.writers p r t).Allowed (fun _ _ _ => True) sched := fun _ _ _ _ => trivial
  obtain ⟨γ, hcommitted, hholds⟩ := Protocol.run_commits sharing_commitPoint hholds (by simp)
    hallowed
  refine ⟨fun i hret => ?_, ?_⟩
  · obtain ⟨before, choice, hturn, hinstalls, _⟩ :=
      hcommitted.once i ((hholds.ended hret).mp rfl)
    exact ⟨before, choice, hturn, hinstalls⟩
  · refine Pool.run_invariant (J := Intact (l.target p) r t) (Or.inl rfl) hcommitted.turns ?_ ?_
    · intro i t' t'' hintact hlook
      unfold Intact
      rw [hlook]
      exact hintact
    · rintro i t' t'' _ ⟨_, content, hwhole, hlook⟩
      exact Or.inr ⟨i, content, hwhole, hlook⟩

/-! ## Schedules that break it -/

/-- A call that ends without an error and installs nothing on its way. -/
theorem not_writesWhole_of_canBy {t : FS}
    (h : Prog.CanBy (fun t t' => ¬ Installs (l.temp p) (l.target p) (r i) t t')
      (fun res _ => res = .ok ()) (l.atomicWrite p (r i)).run t) :
    ∃ sched, ¬ l.WritesWhole p r t sched := by
  obtain ⟨sched, a, hturns, hret, rfl⟩ := Prog.run_alone (i := i) (l.writers p r t) h
  refine ⟨sched, fun hwhole => ?_⟩
  obtain ⟨before, choice, hturn, hinstalls⟩ := hwhole.1 i hret
  exact hturns before i choice hturn hinstalls

section

variable {data : Reader} {t t' : FS}

theorem not_installs (h : l.target p ≠ []) (htemp : t'.node (l.temp p) ≠ none) :
    ¬ Installs (l.temp p) (l.target p) data t t' := by
  rintro ⟨⟨hm, rfl⟩, _⟩
  exact htemp (rename_temp_gone h hm)

/-- The rename of something that is not the whole content. -/
theorem canBy_rename (hdir : t.node (l.target p).dropLast = some .dir)
    (hdst : t.node (l.target p) ≠ some .dir) (htemp : t.node (l.temp p) ≠ none)
    (hkind : t.node (l.temp p) = some .dir → t.node (l.target p) = none)
    (hpart : ∀ content, t.look (l.temp p) = some (.file content) → ¬ Whole data content) :
    Prog.CanBy (fun t t' => ¬ Installs (l.temp p) (l.target p) data t t')
      (fun res _ => res = .ok ())
      (Os.rename (l.full p ++ str ".tmp") (l.full p)).run t := by
  have hroot : l.target p ≠ [] := fun hnil => hdst (hnil ▸ t.root)
  obtain ⟨hm, heq⟩ := renamePath_beside (t := t) htemp hdst (not_target_prefix_temp l hroot).2
    hdir hkind []
  have hexec : os.exec (.rename (l.full p ++ str ".tmp") (l.full p)) (Choice.smooth []) t = _ := heq
  refine Prog.canBy_call _ hexec ?_ rfl
  rintro ⟨_, content, hwhole, hlook⟩
  exact hpart content (FS.look_rename_dst.symm.trans hlook) hwhole

/-- `os.Create` fails, and what is there is renamed. -/
theorem canBy_stale (hdir : t.node (l.target p).dropLast = some .dir)
    (hdst : t.node (l.target p) ≠ some .dir) (htemp : t.node (l.temp p) ≠ none)
    (hkind : t.node (l.temp p) = some .dir → t.node (l.target p) = none)
    (hpart : ∀ content, t.look (l.temp p) = some (.file content) → ¬ Whole data content) :
    Prog.CanBy (fun t t' => ¬ Installs (l.temp p) (l.target p) data t t')
      (fun res _ => res = .ok ()) (l.atomicWrite p data).run t := by
  have hroot : l.target p ≠ [] := fun hnil => hdst (hnil ▸ t.root)
  have hfail : os.exec (.create (l.full p ++ str ".tmp")) ⟨some (0, .busy), [], []⟩ t =
    (.error .busy, t, []) := rfl
  refine Prog.canBy_bindE (Prog.canBy_attempt (Prog.canBy_call _ hfail ?_ ?_))
  · exact not_installs hroot htemp
  · exact Prog.canBy_bindE (canBy_rename hdir hdst htemp hkind hpart)

/-- The first write fails, and nothing has been written. -/
theorem canBy_copyChunks {R : FS → FS → Prop} {o : Handle} {n : Nat} (ho : o.node = .file n)
    (hempty : t.data n = []) (hR : R t t) (chunks : List Str) :
    Prog.CanBy R (fun _ t' => t' = t) (LocalStorage.copyChunks o 0 chunks).run t := by
  induction chunks with
  | nil => rfl
  | cons chunk chunks ih =>
    unfold LocalStorage.copyChunks
    split
    · have hfail : os.exec (.writeAt o 0 chunk) ⟨some (0, .busy), [], []⟩ t =
          (.error .busy, t, (t.places n).map .written) := by
        have hdata : FS.overlay (t.data n) 0 (chunk.take 0) = t.data n := by
          simp [FS.overlay, hempty]
        simp only [exec, FS.writeAt, ho, hdata, write_data]
        rfl
      exact Prog.canBy_bindE (Prog.canBy_call _ hfail hR rfl)
    · rename_i hchunk
      obtain rfl : chunk = [] := by simpa using hchunk
      exact ih

theorem canBy_fill {R : FS → FS → Prop} {o : Handle} {n : Nat} (ho : o.node = .file n)
    (hempty : t.data n = []) (hR : R t t) :
    Prog.CanBy R (fun res t' => res = .ok () ∧ t' = t) (LocalFS.fill data (.ok o)).run t := by
  have hclose : ∀ copied, Prog.CanBy R (fun res t' => res = .ok () ∧ t' = t)
      ((fun _ : Except Errno Unit => closeFile o) copied).run t :=
    fun _ => ⟨.smooth [], hR, rfl, rfl⟩
  refine Prog.canBy_bindE (Prog.canBy_attempt (Prog.canBy_bindE
    (Prog.canBy_mono (fun res t' ht' => ?_) (canBy_copyChunks ho hempty hR _))))
  subst ht'
  cases res with
  | error e => exact hclose (.error e)
  | ok _ =>
    cases (data (32 * 1024)).err with
    | eof => exact hclose (.ok ())
    | other message => exact hclose (.error (.other message))

/-- Nothing is written, and the empty file is renamed. -/
theorem canBy_cut (hdir : t.node (l.target p).dropLast = some .dir)
    (hdst : t.node (l.target p) ≠ some .dir) (htemp : t.node (l.temp p) ≠ some .dir)
    (hpart : ¬ Whole data []) :
    Prog.CanBy (fun t t' => ¬ Installs (l.temp p) (l.target p) data t t')
      (fun res _ => res = .ok ()) (l.atomicWrite p data).run t := by
  have hroot : l.target p ≠ [] := fun hnil => hdst (hnil ▸ t.root)
  obtain ⟨d, n, m, htarget, htempd, _⟩ := exists_temp l p hroot
  have hparent : (l.temp p).dropLast = (l.target p).dropLast := by
    rw [htarget, htempd, List.dropLast_concat, List.dropLast_concat]
  have hup : (l.target p).dropLast ≠ l.temp p := by
    intro he
    have hlen := congrArg List.length (hparent.trans he)
    rw [htempd] at hlen
    simp at hlen
  obtain ⟨i, t₁, effects, hcreate, hnode, hdata, hothers⟩ :=
    create_smooth htemp (hparent ▸ hdir) []
  change os.exec (.create _) (Choice.smooth []) t = _ at hcreate
  have hthere : t₁.node (l.temp p) ≠ none := by simp [LocalFS.temp, hnode]
  have hlook : t₁.look (l.temp p) = some (.file []) := by
    rw [LocalFS.temp, look_file hnode, hdata]
  refine Prog.canBy_bindE (Prog.canBy_attempt (Prog.canBy_call _ hcreate
    (not_installs hroot hthere) (Prog.canBy_bindE (Prog.canBy_mono (fun res t' hres => ?_)
      (canBy_fill rfl hdata (not_installs hroot hthere))))))
  obtain ⟨rfl, rfl⟩ := hres
  refine canBy_rename ?_ ?_ hthere ?_ ?_
  · rw [hothers _ hup, hdir]
  · rw [hothers _ (temp_ne_target l p).symm]
    exact hdst
  · intro hd
    rw [FS.look_dir hd] at hlook
    cases hlook
  · intro content hcontent
    rw [hlook] at hcontent
    cases hcontent
    exact hpart

end

end

/-- **Where a write through the fixed name can be trusted.** Any number of calls on one path,
one call or two of them for instance, keep their promise on every schedule and with every
pattern of failures exactly if nothing can be renamed to the target, or nothing is to be
written: the readers are empty and come to their end, and there is no temporary file or an
empty one. -/
theorem atomicWrites_whole_iff {ι : Type} [DecidableEq ι] [Inhabited ι] (l : LocalFS) (p : Str)
    (r : ι → Reader) (t : FS) :
    (∀ sched, l.WritesWhole p r t sched) ↔
      Barred (l.temp p) (l.target p) t ∨ ((∀ i, Whole (r i) []) ∧ Blank (l.temp p) t) := by
  constructor
  · intro h
    have hnot : ∀ i, ¬ Prog.CanBy (fun t t' => ¬ Installs (l.temp p) (l.target p) (r i) t t')
        (fun res _ => res = .ok ()) (l.atomicWrite p (r i)).run t := by
      intro i hcan
      obtain ⟨sched, hsched⟩ := not_writesWhole_of_canBy hcan
      exact hsched (h sched)
    by_contra hcond
    simp only [Barred, not_or, not_and_or, not_not] at hcond
    obtain ⟨⟨hdst, hdir, hkind⟩, hblank⟩ := hcond
    have htemp : t.node (l.temp p) ≠ some .dir := by
      intro htemp
      refine hnot default (canBy_stale hdir hdst (by simp [htemp]) (fun _ => ?_) ?_)
      · exact hkind.resolve_left (fun hne => hne htemp)
      · intro content hlook
        rw [FS.look_dir htemp] at hlook
        cases hlook
    have hempty : ∀ i, Whole (r i) [] := fun i => by
      by_contra hpart
      exact hnot i (canBy_cut hdir hdst htemp hpart)
    rcases hblank with hsome | hblank
    · exact hsome hempty
    · refine hnot default (canBy_stale hdir hdst ?_ (fun hd => absurd hd htemp) ?_)
      · exact fun hnone => hblank (Or.inl (FS.look_eq_none.mpr hnone))
      · intro content hlook hwhole
        refine hblank (Or.inr ?_)
        rw [hlook, hwhole.2, ← (hempty default).2]
  · rintro (hbarred | ⟨hempty, hblank⟩) sched
    · rcases hbarred with hdir | hparent | hdirTemp
      · exact (safe_noRoom r).writesWhole (Or.inl hdir) sched
      · exact (safe_noRoom r).writesWhole (Or.inr hparent) sched
      · exact (safe_dirTemp r).writesWhole hdirTemp sched
    · by_cases hroot : l.target p = []
      · exact (safe_noRoom r).writesWhole (Or.inl (hroot ▸ t.root)) sched
      · exact (safe_blank hroot hempty).writesWhole hblank sched

/-- One call whose reader fails after a byte, and two calls that fail nowhere: the first
returns `nil` with what was read, and the second installs a mixture. -/
theorem atomicWrites_install_parts :
    let l : LocalFS := ⟨str "/"⟩
    let failing : Unit → Reader := fun _ _ => ⟨[str "a"], [], .other (str "reset")⟩
    let both : Bool → Reader := fun b => newReader (if b then str "b" else str "aa")
    let alone := List.replicate 4 ((), Choice.smooth [])
    let mixed := [false, true, false, true, true, true].map fun b => (b, Choice.smooth [])
    let p := str "/f"
    (((l.writers p failing .empty).run alone).progs () = .ret (.ok ()) ∧
      ((l.writers p failing .empty).run alone).state.look (l.target p) = some (.file (str "a")) ∧
      ¬ l.WritesWhole p failing .empty alone) ∧
    ((l.writers p both .empty).run mixed).progs true = .ret (.ok ()) ∧
      ((l.writers p both .empty).run mixed).state.look (l.target p) = some (.file (str "ba")) ∧
      ¬ l.WritesWhole p both .empty mixed := by
  intro l failing both alone mixed p
  have hfree : FS.empty.look (l.target p) = none := by decide
  have hpart : ((l.writers p failing .empty).run alone).state.look (l.target p) =
      some (.file (str "a")) := by decide +kernel
  have hmixed : ((l.writers p both .empty).run mixed).state.look (l.target p) =
      some (.file (str "ba")) := by decide +kernel
  refine ⟨⟨Pool.result_eq_some.mp (by decide +kernel), hpart, ?_⟩,
    Pool.result_eq_some.mp (by decide +kernel), hmixed, ?_⟩
  · rintro ⟨_, hold | ⟨i, content, hwhole, _⟩⟩
    · rw [hpart, hfree] at hold
      cases hold
    · cases hwhole.1
  · rintro ⟨_, hold | ⟨b, content, hwhole, hlook⟩⟩
    · rw [hmixed, hfree] at hold
      cases hold
    · rw [hmixed, hwhole.2] at hlook
      revert hlook
      cases b <;> decide

end FileEngine.InternalFs
