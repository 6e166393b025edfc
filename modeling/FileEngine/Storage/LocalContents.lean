import FileEngine.Storage.Contents
import FileEngine.Storage.FailedWrites

/-!
# The local backend keeps its contents

A path is an address by the location it denotes beneath the base, and what is kept there is the
content of a file. The names that `CreateTemp` may give are excepted. `WriteOutcome` lists the
three ways in which an `AtomicWrite` can come out, whatever fails on the way.
-/

namespace FileEngine.Local

open Go Os

/-! ## Files of a tree -/

/-- The content of the file at a location. -/
def fileAt (t : FS) (l : Loc) : Option Str :=
  match t.look l with
  | some (.file content) => some content
  | _ => none

/-- Whether there is a directory or a file at a location. -/
def kindAt (t : FS) (l : Loc) : Option Bool := (t.look l).map fun entry => decide (entry = .dir)

/-- A name that `CreateTemp` may give. -/
def TempName (l : Loc) : Prop := ∃ n ∈ l.getLast?, str ".tmp-" <+: n.val

instance (l : Loc) : Decidable (TempName l) := by unfold TempName; infer_instance

section

variable {t t' : FS} {l way : Loc}

theorem fileAt_file {content : Str} (h : t.look l = some (.file content)) :
    fileAt t l = some content := by
  simp [fileAt, h]

theorem fileAt_congr (h : t'.look l = t.look l) : fileAt t' l = fileAt t l := by
  simp [fileAt, h]

/-- New directories are no files. -/
theorem fileAt_addsDirs (h : AddsDirs way t t') (l : Loc) : fileAt t' l = fileAt t l := by
  rcases h.look l with hsame | ⟨_, hnone, hdir⟩
  · exact fileAt_congr hsame
  · simp [fileAt, hnone, hdir]

end

/-! ## How a write comes out -/

/-- How an `AtomicWrite` comes out: it fails before there is a temporary file; it fails and leaves
that file; or it succeeds, and the file with all bytes of the reader has been moved to its place
(where it is already, if the path is that of the temporary file). -/
inductive WriteOutcome (parent target : Loc) (reads : Reads) (t : FS) :
    Except Errno Unit → FS → Prop
  | early {t' : FS} (e : Errno) : AddsDirs parent t t' →
      WriteOutcome parent target reads t (.error e) t'
  | left {t₁ : FS} {n : Name} (e : Errno) (hv : t₁.Vacant (parent ++ [n])) (content : Str) :
      AddsDirs parent t t₁ → str ".tmp-" <+: n.val →
      WriteOutcome parent target reads t (.error e)
        ((t₁.insert (parent ++ [n]) false hv).write t₁.next content)
  | there {t₁ : FS} {n : Name} (hv : t₁.Vacant (parent ++ [n])) :
      AddsDirs parent t t₁ → str ".tmp-" <+: n.val → parent ++ [n] = target → reads.err = .eof →
      WriteOutcome parent target reads t (.ok ())
        ((t₁.insert (parent ++ [n]) false hv).write t₁.next reads.bytes)
  | moved {t₁ : FS} {n : Name} (hv : t₁.Vacant (parent ++ [n]))
      (hm : FS.Movable ((t₁.insert (parent ++ [n]) false hv).write t₁.next reads.bytes)
        (parent ++ [n]) target) :
      AddsDirs parent t t₁ → str ".tmp-" <+: n.val → reads.err = .eof →
      FS.node ((t₁.insert (parent ++ [n]) false hv).write t₁.next reads.bytes) target ≠
        some .dir →
      WriteOutcome parent target reads t (.ok ())
        (FS.rename ((t₁.insert (parent ++ [n]) false hv).write t₁.next reads.bytes)
          (parent ++ [n]) target hm)

/-- Whatever fails, an `AtomicWrite` has one of the three outcomes. -/
theorem atomicWrite_outcome (s : LocalStorage) (path : Str) (r : Reader) (t : FS) :
    Prog.Wp AnyEffect
      (WriteOutcome (locate (dir (s.full path))) (locate (s.full path)) (r (32 * 1024)) t)
      (s.atomicWrite path r).run t := by
  refine Prog.wp_bindE (Prog.wp_call fun choice made t₁ _ hexec => ⟨fun _ _ => trivial, ?_⟩)
  have hdirs := addsDirs_mkdirAll t choice (dir (s.full path))
  rw [show t.mkdirAll choice (dir (s.full path)) = _ from hexec] at hdirs
  cases made with
  | error e => exact .early e hdirs
  | ok _ =>
    refine Prog.wp_bindE (Prog.wp_call fun choice created t₂ _ hexec => ⟨fun _ _ => trivial, ?_⟩)
    rcases t₁.createTemp_cases choice (dir (s.full path)) (str ".tmp-") with
      ⟨e, heq⟩ | ⟨n, hv, hn, heq⟩
    · cases heq.symm.trans hexec
      exact .early e hdirs
    · cases heq.symm.trans hexec
      have htmp : str ".tmp-" <+: n.val := hn ▸ List.prefix_append _ _
      refine Prog.wp_bindE (Prog.wp_attempt (Prog.wp_mono (fun copied t₃ ht₃ => ?_)
        (ioCopy_writes rfl (by simp [FS.insert]) (r (32 * 1024)))))
      obtain ⟨content, rfl, hcontent⟩ := ht₃
      cases copied with
      | error e => exact Prog.wp_bindE (wp_closeFile (.left e hv content hdirs htmp))
      | ok _ =>
        obtain ⟨heof, rfl⟩ := hcontent rfl
        refine Prog.wp_bindE (wp_closeFile (Prog.wp_call
          fun choice res t₄ _ hexec => ⟨fun _ _ => trivial, ?_⟩))
        have hname := FS.locate_joinPath (dir (s.full path)) n
        rcases FS.renamePath_cases _ choice (FS.joinPath (dir (s.full path)) n.val)
          (s.full path) with ⟨e, heq⟩ | ⟨hsame, heq⟩ | ⟨hm, hdst, heq⟩
        · cases heq.symm.trans hexec
          exact .left e hv _ hdirs htmp
        · cases heq.symm.trans hexec
          exact .there hv hdirs htmp (hname ▸ hsame) heof
        · cases heq.symm.trans hexec
          simp only [hname] at hm ⊢
          exact .moved hv hm hdirs htmp heof hdst

/-! ## What is kept -/

section

variable {parent target l : Loc} {reads : Reads} {t t' : FS}

theorem tempName_child {n : Name} (h : str ".tmp-" <+: n.val) : TempName (parent ++ [n]) :=
  ⟨n, List.getLast?_concat, h⟩

/-- A write that succeeds puts all bytes at the target. -/
theorem WriteOutcome.installed (h : WriteOutcome parent target reads t (.ok ()) t') :
    fileAt t' target = some reads.bytes := by
  cases h with
  | there hv hdirs htmp hsame heof =>
    rw [← hsame]
    exact fileAt_file look_insert_write
  | moved hv hm hdirs htmp heof hdst =>
    refine fileAt_file ?_
    rw [FS.look_rename_dst]
    exact look_insert_write

/-- Elsewhere nothing changes but temporary files and new directories, and nowhere if the write
fails. -/
theorem WriteOutcome.others {r : Except Errno Unit} (h : WriteOutcome parent target reads t r t')
    (hl : ¬ TempName l) (htarget : l = target → r ≠ .ok ()) : fileAt t' l = fileAt t l := by
  have htmp : ∀ {t₁ : FS} {n : Name} (hv : t₁.Vacant (parent ++ [n])) (content : Str),
      AddsDirs parent t t₁ → str ".tmp-" <+: n.val →
      fileAt ((t₁.insert (parent ++ [n]) false hv).write t₁.next content) l = fileAt t l := by
    intro t₁ n hv content hdirs hn
    rw [← fileAt_addsDirs hdirs l]
    refine fileAt_congr (sameAt_insert_write ?_).look
    rintro rfl
    exact hl (tempName_child hn)
  cases h with
  | early e hdirs => exact fileAt_addsDirs hdirs l
  | left e hv content hdirs hn => exact htmp hv content hdirs hn
  | there hv hdirs hn hsame heof => exact htmp hv reads.bytes hdirs hn
  | @moved t₁ n hv hm hdirs hn heof hdst =>
    rw [← htmp hv reads.bytes hdirs hn]
    have hfile : FS.node ((t₁.insert (parent ++ [n]) false hv).write t₁.next reads.bytes)
        (parent ++ [n]) = some (.file t₁.next) := by
      simp [FS.insert, FS.write]
    refine fileAt_congr (FS.look_rename_file hfile hdst ?_ fun he => htarget he rfl)
    rintro rfl
    exact hl (tempName_child hn)

/-- All that a write can do at a location: nothing; or there is a new directory on the way, or a
temporary file that was left; or the location is the target, and the file is in place. -/
theorem WriteOutcome.at_ {r : Except Errno Unit} (h : WriteOutcome parent target reads t r t')
    (l : Loc) :
    t'.look l = t.look l ∨ (l <+: parent ∧ t.look l = none ∧ t'.look l = some .dir) ∨
      (t.look l ≠ some .dir ∧ (∃ content, t'.look l = some (.file content)) ∧
        (l = target ∨
          t.look l = none ∧ ∃ n : Name, l = parent ++ [n] ∧ str ".tmp-" <+: n.val)) := by
  have htmp : ∀ {t₁ : FS} {n : Name} (hv : t₁.Vacant (parent ++ [n])) (content : Str),
      AddsDirs parent t t₁ → str ".tmp-" <+: n.val → l = parent ++ [n] → t.look l = none ∧
        FS.look ((t₁.insert (parent ++ [n]) false hv).write t₁.next content) l =
          some (.file content) := by
    rintro t₁ n hv content hdirs hn rfl
    exact ⟨FS.look_eq_none.mpr (hdirs.node_none hv.new), look_insert_write⟩
  have haway : ∀ {t₁ : FS} {n : Name} (hv : t₁.Vacant (parent ++ [n])) (content : Str),
      AddsDirs parent t t₁ → l ≠ parent ++ [n] →
        FS.look ((t₁.insert (parent ++ [n]) false hv).write t₁.next content) l = t.look l ∨
        (l <+: parent ∧ t.look l = none ∧
          FS.look ((t₁.insert (parent ++ [n]) false hv).write t₁.next content) l =
            some .dir) := by
    intro t₁ n hv content hdirs hne
    rw [(sameAt_insert_write hne).look]
    exact hdirs.look l
  cases h with
  | early e hdirs => exact (hdirs.look l).imp_right Or.inl
  | @left t₁ n e hv content hdirs hn =>
    by_cases hl : l = parent ++ [n]
    · obtain ⟨hnone, hfile⟩ := htmp hv content hdirs hn hl
      exact Or.inr (Or.inr ⟨by simp [hnone], ⟨_, hfile⟩, Or.inr ⟨hnone, n, hl, hn⟩⟩)
    · exact (haway hv content hdirs hl).imp_right Or.inl
  | @there t₁ n hv hdirs hn hsame heof =>
    by_cases hl : l = parent ++ [n]
    · obtain ⟨hnone, hfile⟩ := htmp hv reads.bytes hdirs hn hl
      exact Or.inr (Or.inr ⟨by simp [hnone], ⟨_, hfile⟩, Or.inl (hl.trans hsame)⟩)
    · exact (haway hv reads.bytes hdirs hl).imp_right Or.inl
  | @moved t₁ n hv hm hdirs hn heof hdst =>
    have hfile : FS.node ((t₁.insert (parent ++ [n]) false hv).write t₁.next reads.bytes)
        (parent ++ [n]) = some (.file t₁.next) := by
      simp [FS.insert, FS.write]
    by_cases hl : l = parent ++ [n]
    · obtain ⟨hnone, _⟩ := htmp hv reads.bytes hdirs hn hl
      rw [hnone, hl, FS.look_rename_src hfile hdst]
      exact Or.inl rfl
    · by_cases htarget : l = target
      · refine Or.inr (Or.inr ⟨fun hdir => hdst ?_, ?_, Or.inl htarget⟩)
        · rw [← htarget, ← FS.look_eq_dir, (sameAt_insert_write hl).look]
          exact hdirs.look_some hdir
        · rw [htarget, FS.look_rename_dst]
          exact ⟨_, look_insert_write⟩
      · rw [FS.look_rename_file hfile hdst hl htarget]
        exact (haway hv reads.bytes hdirs hl).imp_right Or.inl

/-- Directories stay. -/
theorem WriteOutcome.dirs {r : Except Errno Unit} (h : WriteOutcome parent target reads t r t')
    (hl : t.look l = some .dir) : t'.look l = some .dir := by
  rcases h.at_ l with hsame | ⟨_, _, hdir⟩ | ⟨hno, _⟩
  · exact hsame.trans hl
  · exact hdir
  · exact absurd hl hno

end

/-- What `Open` shows of a tree is what stands at the location. -/
theorem open_look {s : LocalStorage} {choice : Choice} {path : Str} {t : FS} {entry : Entry}
    (h : s.open_ choice path t = .ok entry) : t.look (locate (s.full path)) = some entry := by
  rw [LocalStorage.open_, FS.shown_openFile] at h
  unfold FS.stat at h
  split at h
  · cases h
  · split at h
    · cases h
    · cases h
      assumption

section

variable (s : LocalStorage) (message : Errno → Str) (dirSize : List Str → Int)

theorem exposed_atomicWrite (path c : Str) (e : Exposed FS Choice) :
    ∃ r, ((s.exposed message dirSize).atomicWrite path (newReader c) e).1 = r.mapError message ∧
      WriteOutcome (locate (dir (s.full path))) (locate (s.full path)) (newReader c (32 * 1024))
        e.state r ((s.exposed message dirSize).atomicWrite path (newReader c) e).2.state :=
  Exposed.run_of_wp (M := os) (e := e) (atomicWrite_outcome s path (newReader c) e.state) message

/-- `Open` gives a reader of the file, or one that fails at once for a directory. -/
theorem exposed_open {path : Str} {e : Exposed FS Choice} {r : Reader}
    (h : ((s.exposed message dirSize).open_ path e).1 = .ok r) :
    (∃ content, fileAt e.state (locate (s.full path)) = some content ∧
      r = cutReader content (e.coming 0).cut) ∨
      r = fun _ => ⟨[], [], .other (message .isdir)⟩ := by
  have hread := mapError_ok.mp h
  cases hopen : s.open_ ((e.coming 0).choices 0) path e.state with
  | error e' =>
    rw [hopen] at hread
    cases hread
  | ok entry =>
    rw [hopen] at hread
    cases entry with
    | dir => exact Or.inr (Except.ok.inj hread).symm
    | file content =>
      exact Or.inl ⟨content, fileAt_file (open_look hopen), (Except.ok.inj hread).symm⟩

theorem exposed_write_ok (path c : Str) (e : Exposed FS Choice)
    (hok : ((s.exposed message dirSize).atomicWrite path (newReader c) e).1 = .ok ()) :
    fileAt ((s.exposed message dirSize).atomicWrite path (newReader c) e).2.state
      (locate (s.full path)) = some c := by
  obtain ⟨r, hr, houtcome⟩ := exposed_atomicWrite s message dirSize path c e
  obtain rfl := mapError_ok.mp (hr.symm.trans hok)
  exact houtcome.installed.trans (congrArg some (bytes_newReader c _))

theorem exposed_write_keeps (path c : Str) (e : Exposed FS Choice) {l : Loc} (hl : ¬ TempName l)
    (htarget : l = locate (s.full path) →
      ((s.exposed message dirSize).atomicWrite path (newReader c) e).1 ≠ .ok ()) :
    fileAt ((s.exposed message dirSize).atomicWrite path (newReader c) e).2.state l =
      fileAt e.state l := by
  obtain ⟨r, hr, houtcome⟩ := exposed_atomicWrite s message dirSize path c e
  refine houtcome.others hl fun he hok => htarget he ?_
  rw [hr, hok]
  rfl

theorem exposed_open_eof {path : Str} {e : Exposed FS Choice} {r : Reader} {n : Nat}
    (h : ((s.exposed message dirSize).open_ path e).1 = .ok r) (heof : (r n).err = .eof) :
    fileAt e.state (locate (s.full path)) = some (r n).bytes := by
  rcases exposed_open s message dirSize h with ⟨content, hfile, rfl⟩ | rfl
  · rw [hfile, (cutReader_spec content _ n).1 heof]
  · cases heof

theorem exposed_open_front {path : Str} {e : Exposed FS Choice} {r : Reader} (n : Nat)
    (h : ((s.exposed message dirSize).open_ path e).1 = .ok r) :
    (r n).bytes <+: (fileAt e.state (locate (s.full path))).getD [] := by
  rcases exposed_open s message dirSize h with ⟨content, hfile, rfl⟩ | rfl
  · rw [hfile]
    exact (cutReader_spec content _ n).2
  · exact List.nil_prefix

/-- **The local backend keeps its contents.** -/
def LocalStorage.contents : Contents (s.exposed message dirSize) Loc where
  addr path := locate (s.full path)
  kept e := fileAt e.state
  Unkept := TempName
  write_ok path c e _ := exposed_write_ok s message dirSize path c e
  write_keeps path c e _ := exposed_write_keeps s message dirSize path c e
  createFolder_keeps path e l _ := fileAt_addsDirs (addsDirs_mkdirAll e.state _ (s.full path)) l
  list_keeps _ _ := rfl
  open_keeps _ _ := rfl
  open_eof _ _ _ _ := exposed_open_eof s message dirSize
  open_front _ _ _ n := exposed_open_front s message dirSize n

/-- A `CreateFolder` that succeeds has made the directory. -/
theorem exposed_createFolder_ok (path : Str) (e : Exposed FS Choice)
    (hok : ((s.exposed message dirSize).createFolder path e).1 = .ok ()) :
    ((s.exposed message dirSize).createFolder path e).2.state.look (locate (s.full path)) =
      some .dir := by
  rcases mkdirs_spec e.state ((e.coming 0).choices 0).fault [] (locate (s.full path)) e.state.root
    with ⟨_, e', herror⟩ | ⟨_, _, hdir⟩
  · cases (mapError_ok.mp hok).symm.trans herror
  · exact FS.look_dir hdir

theorem exposed_write_dirs (path c : Str) (e : Exposed FS Choice) {l : Loc}
    (hl : e.state.look l = some .dir) :
    ((s.exposed message dirSize).atomicWrite path (newReader c) e).2.state.look l = some .dir := by
  obtain ⟨r, _, houtcome⟩ := exposed_atomicWrite s message dirSize path c e
  exact houtcome.dirs hl

/-- Folders of the local backend are directories. -/
def LocalStorage.folders : Folders (s.exposed message dirSize) where
  has e path := e.state.look (locate (s.full path)) = some .dir
  createFolder_ok := exposed_createFolder_ok s message dirSize
  createFolder_keeps path e _ := (addsDirs_mkdirAll e.state _ (s.full path)).look_some
  write_keeps path c e _ := exposed_write_dirs s message dirSize path c e
  list_keeps _ _ _ h := h
  open_keeps _ _ _ h := h

/-! ## Growth -/

theorem kindAt_congr {t t' : FS} {l : Loc} (h : t'.look l = t.look l) :
    kindAt t' l = kindAt t l := by
  simp [kindAt, h]

theorem kindAt_addsDirs {way : Loc} {t t' : FS} (h : AddsDirs way t t') (l : Loc) :
    kindAt t' l = kindAt t l ∨ (l <+: way ∧ kindAt t l = none ∧ kindAt t' l = some true) := by
  rcases h.look l with hsame | ⟨hway, hnone, hdir⟩
  · exact Or.inl (kindAt_congr hsame)
  · exact Or.inr ⟨hway, by simp [kindAt, hnone], by simp [kindAt, hdir]⟩

/-- What a write to `path` may bring about: directories on the way, the file itself, and a
temporary file beside it. -/
def LocalStorage.WriteBrings (path : Str) (k : Loc × Bool) : Prop :=
  (k.2 = true ∧ k.1 <+: locate (dir (s.full path))) ∨
    (k.2 = false ∧ (k.1 = locate (s.full path) ∨
      ∃ n : Name, k.1 = locate (dir (s.full path)) ++ [n] ∧ str ".tmp-" <+: n.val))

theorem exposed_write_kind (path c : Str) (e : Exposed FS Choice) (l : Loc) :
    let t' := ((s.exposed message dirSize).atomicWrite path (newReader c) e).2.state
    kindAt t' l = kindAt e.state l ∨
      (kindAt e.state l = none ∧
        ∃ kind, kindAt t' l = some kind ∧ s.WriteBrings path (l, kind)) := by
  intro t'
  obtain ⟨r, _, houtcome⟩ := exposed_atomicWrite s message dirSize path c e
  rcases houtcome.at_ l with hsame | ⟨hway, hnone, hdir⟩ | ⟨hno, ⟨content, hfile⟩, hplace⟩
  · exact Or.inl (kindAt_congr hsame)
  · exact Or.inr ⟨by simp [kindAt, hnone], true, by simp [t', kindAt, hdir], Or.inl ⟨rfl, hway⟩⟩
  · have hkind : kindAt t' l = some false := by simp [t', kindAt, hfile]
    cases hlook : e.state.look l with
    | none =>
      exact Or.inr ⟨by simp [kindAt, hlook], false, hkind,
        Or.inr ⟨rfl, hplace.imp_right And.right⟩⟩
    | some entry =>
      have hentry : entry ≠ .dir := fun hdir => hno (hdir ▸ hlook)
      refine Or.inl (hkind.trans ?_)
      simp [kindAt, hlook, hentry]

theorem exposed_write_keeps_kind (path c : Str) (e : Exposed FS Choice) {k : Loc × Bool}
    (h : kindAt e.state k.1 = some k.2) :
    kindAt ((s.exposed message dirSize).atomicWrite path (newReader c) e).2.state k.1 =
      some k.2 := by
  rcases exposed_write_kind s message dirSize path c e k.1 with hsame | ⟨hnone, _⟩
  · exact hsame.trans h
  · rw [h] at hnone
    cases hnone

theorem exposed_write_brings (path c : Str) (e : Exposed FS Choice) {k : Loc × Bool}
    (h : kindAt ((s.exposed message dirSize).atomicWrite path (newReader c) e).2.state k.1 =
      some k.2) : kindAt e.state k.1 = some k.2 ∨ s.WriteBrings path k := by
  rcases exposed_write_kind s message dirSize path c e k.1 with hsame | ⟨_, kind, hkind, hbrings⟩
  · exact Or.inl (hsame ▸ h)
  · obtain rfl := Option.some.inj (hkind.symm.trans h)
    exact Or.inr hbrings

theorem exposed_createFolder_keeps_kind (path : Str) (e : Exposed FS Choice) {k : Loc × Bool}
    (h : kindAt e.state k.1 = some k.2) :
    kindAt ((s.exposed message dirSize).createFolder path e).2.state k.1 = some k.2 := by
  have hdirs := addsDirs_mkdirAll e.state ((e.coming 0).choices 0) (s.full path)
  rcases kindAt_addsDirs hdirs k.1 with hsame | ⟨_, hnone, _⟩
  · exact hsame.trans h
  · rw [h] at hnone
    cases hnone

theorem exposed_createFolder_brings (path : Str) (e : Exposed FS Choice) {k : Loc × Bool}
    (h : kindAt ((s.exposed message dirSize).createFolder path e).2.state k.1 = some k.2) :
    kindAt e.state k.1 = some k.2 ∨ (k.2 = true ∧ k.1 <+: locate (s.full path)) := by
  have hdirs := addsDirs_mkdirAll e.state ((e.coming 0).choices 0) (s.full path)
  rcases kindAt_addsDirs hdirs k.1 with hsame | ⟨hway, _, hkind⟩
  · exact Or.inl (hsame.symm.trans h)
  · exact Or.inr ⟨Option.some.inj (h.symm.trans hkind), hway⟩

/-- The tree of the local backend: no file or directory goes away. -/
def LocalStorage.growth : Growth (s.exposed message dirSize) (Loc × Bool) where
  has e k := kindAt e.state k.1 = some k.2
  Loose _ := False
  WriteBrings := s.WriteBrings
  FolderBrings path k := k.2 = true ∧ k.1 <+: locate (s.full path)
  write_keeps path c e _ _ := exposed_write_keeps_kind s message dirSize path c e
  write_brings path c e _ := exposed_write_brings s message dirSize path c e
  createFolder_keeps path e _ := exposed_createFolder_keeps_kind s message dirSize path e
  createFolder_brings path e _ := exposed_createFolder_brings s message dirSize path e
  list_same _ _ := rfl
  open_same _ _ := rfl

end

end FileEngine.Local
