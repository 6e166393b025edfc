import FileEngine.Storage.Local
import FileEngine.Storage.ObjectBackends

/-!
# Writes that fail

All three backends write to a temporary name first, in the same namespace as everything
else. No error branch of `AtomicWrite` removes it again. So a write that fails after the
temporary file or object has come into being leaves it behind, where `Open`, `Exists` and
`List` show it: the local backend and GCS also if only the reader fails, and then with a
part of the content.

For each backend the theorem `atomicWrite_failed` says what a failed write leaves.
-/

namespace FileEngine.Local

open Go Os

/-! ## The local backend -/

/-- `Open`, `Exists` and `List` give the same results on two trees. -/
def SameView (s : LocalStorage) (t t' : FS) : Prop :=
  ∀ (path : Str) (choice : Choice), s.open_ choice path t' = s.open_ choice path t ∧
    s.exists_ choice path t' = s.exists_ choice path t ∧
    ∀ dirSize lost, s.list dirSize choice lost path t' = s.list dirSize choice lost path t

/-- Up to new directories on the way to the target, nothing can be seen of the change. -/
def Invisible (s : LocalStorage) (path : Str) (t t' : FS) : Prop :=
  ∃ t₀, AddsDirs (locate (dir (s.full path))) t t₀ ∧ SameView s t₀ t'

/-- The write comes to its end before there is a temporary file, or that file is not beneath
the base: `MkdirAll` or `CreateTemp` fails, or the target is the base itself. -/
def LeavesNothing (s : LocalStorage) (path : Str) (choices : Nat → Choice) (t : FS) : Prop :=
  let parent := locate (dir (s.full path))
  Blocked t (choices 0).fault [] parent ∨ (choices 1).fault ≠ none ∨
    ∀ n : Name, n.val = str ".tmp-" ++ (choices 1).rand →
      t.node (parent ++ [n]) ≠ none ∨ ¬ locate s.base <+: parent ++ [n]

section

variable {s : LocalStorage} {t t' : FS}

/-- The operations look at nothing but the base, what is above and what is beneath it. -/
theorem sameView_of_sameAt
    (h : ∀ l, locate s.base <+: l ∨ l <+: locate s.base → SameAt l t t') : SameView s t t' := by
  intro path choice
  have hbase : locate s.base <+: locate (s.full path) := by
    rw [locate_full]
    exact List.prefix_append _ _
  have habove : ∀ k, k <+: locate (s.full path) → SameAt k t t' := fun k hk =>
    h k (List.prefix_or_prefix_of_prefix hbase hk)
  have hbeneath : ∀ k, SameAt (locate (s.full path) ++ k) t t' := fun k =>
    h _ (Or.inl (hbase.trans (List.prefix_append _ _)))
  have hstat := FS.stat_congr habove choice
  refine ⟨?_, ?_, fun dirSize lost => ?_⟩
  · unfold LocalStorage.open_
    rw [FS.shown_openFile, FS.shown_openFile, hstat]
  · unfold LocalStorage.exists_
    rw [hstat]
  · unfold LocalStorage.list
    dsimp only
    rw [FS.readDir_congr habove (fun n => (hbeneath [n]).1)]
    cases hnames : t.readDir choice (s.full path) with
    | error e => rfl
    | ok names =>
      refine congrArg Except.ok (List.map_congr_left fun c hc => ?_)
      rw [FS.readDir_ok hnames] at hc
      obtain ⟨n, rfl, _⟩ := FS.mem_names.mp hc
      rw [FS.locate_joinPath, (hbeneath [n]).look, FS.names_congr fun m => ?_]
      rw [List.append_assoc]
      exact (hbeneath ([n] ++ [m])).1

/-! ## What a failed write leaves -/

/-- What `AtomicWrite` does after it has created the temporary file. -/
def fillTemp (s : LocalStorage) (path : Str) (r : Reader) (tmp : Handle) : OsM Unit := do
  match ← Prog.attempt (LocalStorage.ioCopy tmp (r (32 * 1024))) with
  | .error e =>
      closeFile tmp
      throw e
  | .ok _ =>
      closeFile tmp
      rename tmp.name (s.full path)

theorem atomicWrite_eq (s : LocalStorage) (path : Str) (r : Reader) :
    s.atomicWrite path r = mkdirAll (dir (s.full path)) >>= fun _ =>
      createTemp (dir (s.full path)) (str ".tmp-") >>= fillTemp s path r := rfl

/-- On the line no write is reported as a success that was none. -/
def Honest {L : Type} (hear : L → (c : os.Call) → os.Reply c → os.Reply c) : Prop :=
  ∀ l tmp offset bytes r, hear l (.writeAt tmp offset bytes) r = Except.ok () → r = Except.ok ()

/-- No call fails, and every reply is heard as it is. -/
def Undisturbed {L : Type} (hear : L → (c : os.Call) → os.Reply c → os.Reply c)
    (E : Call → Choice × L → FS → Prop) : Prop :=
  ∀ c choice t, E c choice t → choice.1.fault = none ∧ ∀ r, hear choice.2 c r = r

section

variable {L : Type} {hear : L → (c : os.Call) → os.Reply c → os.Reply c}
  {E : Call → Choice × L → FS → Prop} {tmp : Handle} {i : Nat}

theorem copyChunks_writes (hhear : Honest hear) (htmp : tmp.node = .file i) (chunks : List Str)
    (written : Str) :
    Prog.Under (M := os.remote hear) E (fun r t' => ∃ content, t' = t.write i content ∧
        (r = .ok () → content = written ++ chunks.flatten) ∧ (Undisturbed hear E → r = .ok ()))
      ((LocalStorage.copyChunks tmp written.length chunks).run.remote hear)
      (t.write i written) := by
  induction chunks generalizing written with
  | nil => exact ⟨written, rfl, fun _ => by simp, fun _ => rfl⟩
  | cons chunk chunks ih =>
    have hrest := ih (written ++ chunk)
    rw [List.length_append] at hrest
    simp only [List.append_assoc written] at hrest
    unfold LocalStorage.copyChunks
    split
    · refine Prog.under_remote_bindE (M := os) hear (Prog.under_remote_call (M := os) hear
        fun choice l hE r t' effects hexec => ?_)
      have hdata : (t.write i written).data i = written := by simp [FS.write]
      have hwrite : ∃ content, t' = t.write i content ∧
          (r = .ok () → content = written ++ chunk) ∧ (choice.fault = none → r = .ok ()) := by
        rcases writeAt_file (t.write i written) choice htmp written.length chunk with
          ⟨e, steps, hfault, heq⟩ | ⟨_, heq⟩
        · cases heq.symm.trans hexec
          refine ⟨_, write_write t i written _, (fun h => by cases h), fun hnone => ?_⟩
          rw [hfault] at hnone
          cases hnone
        · cases heq.symm.trans hexec
          exact ⟨_, write_write t i written _, fun _ => by rw [hdata, overlay_length],
            fun _ => rfl⟩
      obtain ⟨content, rfl, hcontent, hok⟩ := hwrite
      cases hheard : hear l (.writeAt tmp written.length chunk) r with
      | error e =>
        refine ⟨content, rfl, (fun h => by cases h), fun hcalm => ?_⟩
        obtain ⟨hfault, hsame⟩ := hcalm _ _ _ hE
        rw [show hear l _ r = r from hsame r, hok hfault] at hheard
        cases hheard
      | ok _ =>
        obtain rfl := hcontent (hhear _ _ _ _ _ hheard)
        exact hrest
    · rename_i hempty
      obtain rfl : chunk = [] := by simpa using hempty
      simpa using hrest

/-- What the reader's last error makes of the copy. -/
def copyResult (reads : Reads) : Except Errno Unit :=
  match reads.err with
  | .eof => .ok ()
  | .other message => .error (.other message)

/-- **What `io.Copy` leaves in an empty file**, over any such line: some content, and all that
the reader has if no error is heard. Where nothing is disturbed, the reader decides. -/
theorem remote_ioCopy_writes (hhear : Honest hear) (htmp : tmp.node = .file i)
    (hdata : t.data i = []) (reads : Reads) :
    Prog.Under (M := os.remote hear) E (fun r t' => ∃ content, t' = t.write i content ∧
        (r = .ok () → reads.err = .eof ∧ content = reads.bytes) ∧
        (Undisturbed hear E → r = copyResult reads ∧ content = reads.bytes))
      ((LocalStorage.ioCopy tmp reads).run.remote hear) t := by
  have hstart := copyChunks_writes (t := t) (E := E) hhear htmp (reads.chunks ++ [reads.last]) []
  rw [show t.write i [] = t from hdata ▸ write_data t i] at hstart
  refine Prog.under_remote_bindE (M := os) hear (Prog.under_mono (fun r t' ht' => ?_) hstart)
  obtain ⟨content, rfl, hcontent, hok⟩ := ht'
  cases r with
  | error e =>
    refine ⟨content, rfl, (fun h => by cases h), fun hcalm => ?_⟩
    cases hok hcalm
  | ok _ =>
    have hbytes : content = reads.bytes := by simpa [Reads.bytes] using hcontent rfl
    cases herr : reads.err with
    | eof =>
      exact ⟨content, rfl, fun _ => ⟨rfl, hbytes⟩, fun _ => ⟨by simp [copyResult, herr], hbytes⟩⟩
    | other message =>
      exact ⟨content, rfl, (fun h => by cases h), fun _ => ⟨by simp [copyResult, herr], hbytes⟩⟩

theorem under_ioCopy {E : Call → Choice → FS → Prop} (htmp : tmp.node = .file i)
    (hdata : t.data i = []) (reads : Reads) :
    Prog.Under E (fun r t' => ∃ content, t' = t.write i content ∧
        (r = .ok () → reads.err = .eof ∧ content = reads.bytes) ∧
        ((∀ c choice t, E c choice t → choice.fault = none) →
          r = copyResult reads ∧ content = reads.bytes))
      (LocalStorage.ioCopy tmp reads).run t := by
  refine Prog.under_of_remote (M := os) (fun (_ : Unit) _ r => r) (l := ()) (fun _ _ => rfl)
    (E := fun c choice t => E c choice.1 t) (Prog.under_mono (fun r t' hr => ?_)
      (remote_ioCopy_writes (fun _ _ _ _ _ h => h) htmp hdata reads))
  obtain ⟨content, ht', hok, hcalm⟩ := hr
  exact ⟨content, ht', hok, fun hE => hcalm fun _ _ _ h => ⟨hE _ _ _ h, fun _ => rfl⟩⟩

theorem ioCopy_writes (htmp : tmp.node = .file i) (hdata : t.data i = []) (reads : Reads) :
    Prog.Wp AnyEffect (fun r t' => ∃ content, t' = t.write i content ∧
        (r = .ok () → reads.err = .eof ∧ content = reads.bytes))
      (LocalStorage.ioCopy tmp reads).run t := by
  refine Prog.wp_of_under (Prog.under_mono (fun r t' hr => ?_) (under_ioCopy htmp hdata reads))
  obtain ⟨content, ht', hok, _⟩ := hr
  exact ⟨content, ht', hok⟩

end

/-- Once there is a temporary file, a write that fails leaves it. -/
theorem fillTemp_fails {tmp : Handle} {i : Nat} (htmp : tmp.node = .file i)
    (hdata : t.data i = []) (path : Str) (r : Reader) :
    Prog.Wp AnyEffect (fun v t' => ∀ e, v = .error e → ∃ content, t' = t.write i content)
      (fillTemp s path r tmp).run t := by
  refine Prog.wp_bindE (Prog.wp_attempt (Prog.wp_mono (fun copied t' hcopied => ?_)
    (ioCopy_writes htmp hdata (r (32 * 1024)))))
  have ht' : ∃ content, t' = t.write i content := hcopied.imp fun _ h => h.1
  cases copied with
  | error e => exact Prog.wp_bindE (wp_closeFile fun _ _ => ht')
  | ok _ =>
    refine Prog.wp_bindE (wp_closeFile (Prog.wp_call
      fun choice v t'' effects hexec => ⟨fun _ _ => trivial, ?_⟩))
    rcases t'.renamePath_cases choice tmp.name (s.full path) with
      ⟨e, heq⟩ | ⟨_, heq⟩ | ⟨_, _, heq⟩
    · cases heq.symm.trans hexec
      exact fun _ _ => ht'
    · cases heq.symm.trans hexec
      exact nofun
    · cases heq.symm.trans hexec
      exact nofun

/-- What a failed write leaves: some directories, and the temporary file unless the failure
came before it. -/
theorem atomicWrite_failed {path : Str} {r : Reader} {choices : Nat → Choice} {e : Errno}
    (herr : (Prog.run (s.atomicWrite path r).run choices t).value = .error e) :
    let parent := locate (dir (s.full path))
    let t' := (Prog.run (s.atomicWrite path r).run choices t).state
    (AddsDirs parent t t' ∧ (Blocked t (choices 0).fault [] parent ∨ (choices 1).fault ≠ none ∨
      ∀ n : Name, n.val = str ".tmp-" ++ (choices 1).rand → t.node (parent ++ [n]) ≠ none)) ∨
    ∃ (n : Name) (t₁ : FS) (hv : t₁.Vacant (parent ++ [n])) (content : Str),
      ¬ Blocked t (choices 0).fault [] parent ∧ (choices 1).fault = none ∧
      n.val = str ".tmp-" ++ (choices 1).rand ∧ AddsDirs parent t t₁ ∧
      t' = (t₁.insert (parent ++ [n]) false hv).write t₁.next content := by
  rw [atomicWrite_eq] at herr ⊢
  intro parent t'
  obtain ⟨t₁, hdirs, ⟨hblocked, hstate⟩ | ⟨hfree, hdir, hvalue, hstate⟩⟩ :=
    run_mkdirAll (dir (s.full path))
      (fun _ => createTemp (dir (s.full path)) (str ".tmp-") >>= fillTemp s path r) choices t
  · have ht' : t' = t₁ := hstate
    exact Or.inl ⟨ht' ▸ hdirs, Or.inl hblocked⟩
  rcases run_createTemp (dir (s.full path)) (str ".tmp-") (fillTemp s path r)
    (fun n => choices (n + 1)) hdir with
    ⟨hcond, hstate'⟩ | ⟨n, hv, tmp, hfault, hn, htmp, hvalue', hstate'⟩
  · have ht' : t' = t₁ := hstate.trans hstate'
    refine Or.inl ⟨ht' ▸ hdirs, Or.inr (hcond.imp_right fun htaken n hn => ?_)⟩
    rw [← (hdirs.child n).1]
    exact htaken n hn
  · have herr' := hvalue'.symm.trans (hvalue.symm.trans herr)
    obtain ⟨content, hcontent⟩ := (Prog.run_of_wp
      (fillTemp_fails htmp (by simp [FS.insert]) path r) _).2 e herr'
    exact Or.inr ⟨n, t₁, hv, content, hfree, hfault, hn, hdirs,
      hstate.trans (hstate'.trans hcontent)⟩

/-- A file that is new, beneath the base, is seen. -/
theorem not_sameView_of_new {l : Loc} {content : Str} (hnone : t.look (locate s.base ++ l) = none)
    (hnew : t'.look (locate s.base ++ l) = some (.file content)) : ¬ SameView s t t' := by
  intro h
  have hopen := (h l.path (.smooth [])).1
  have hl : locate (s.full l.path) = locate s.base ++ l := by rw [locate_full, locate_path]
  unfold LocalStorage.open_ at hopen
  simp only [FS.shown_openFile, FS.stat, Choice.smooth, hl, hnone, hnew] at hopen
  cases hopen

/-- A name beside a target that is above the base is the name of the base. -/
theorem tmp_eq_base {path : Str} {n : Name}
    (h : locate (dir (s.full path)) ++ [n] <+: locate s.base) :
    locate (dir (s.full path)) ++ [n] = locate s.base := by
  refine h.eq_of_length_le ?_
  have hdir : locate (dir (s.full path)) = (locate s.base ++ locate path).dropLast := by
    rw [← locate_full]
    exact locate_dir_join _
  rw [hdir]
  simp only [List.length_append, List.length_dropLast, List.length_singleton]
  omega

theorem localWrite_invisible {path : Str} {r : Reader} {choices : Nat → Choice} {e : Errno}
    (herr : (Prog.run (s.atomicWrite path r).run choices t).value = .error e) :
    Invisible s path t (Prog.run (s.atomicWrite path r).run choices t).state ↔
      LeavesNothing s path choices t := by
  rcases atomicWrite_failed herr with
    ⟨hdirs, hcond⟩ | ⟨n, t₁, hv, content, hfree, hfault, hn, hdirs, ht'⟩
  · refine iff_of_true ⟨_, hdirs, fun _ _ => ⟨rfl, rfl, fun _ _ => rfl⟩⟩ ?_
    exact hcond.imp_right (Or.imp_right fun htaken n hn => Or.inl (htaken n hn))
  · rw [ht']
    have hnew : t.node (locate (dir (s.full path)) ++ [n]) = none :=
      (hdirs.child n).1 ▸ hv.new
    constructor
    · rintro ⟨t₀, hdirs₀, hview⟩
      refine Or.inr (Or.inr fun m hm => Or.inr ?_)
      obtain rfl : m = n := Name.ext (hm.trans hn.symm)
      rintro ⟨l, hl⟩
      have hnone₀ : t₀.look (locate s.base ++ l) = none := by
        rw [hl, FS.look_eq_none, (hdirs₀.child m).1, hnew]
      have hthere : ((t₁.insert _ false hv).write t₁.next content).look (locate s.base ++ l) =
          some (.file content) := by
        rw [hl]
        exact look_insert_write
      exact not_sameView_of_new hnone₀ hthere hview
    · rintro (hblocked | hfault' | hname)
      · exact absurd hblocked hfree
      · exact absurd hfault hfault'
      · have hout := (hname n hn).resolve_left fun h => h hnew
        refine ⟨t₁, hdirs, sameView_of_sameAt fun l hl => sameAt_insert_write ?_⟩
        rintro rfl
        rcases hl with hl | hl
        · exact hout hl
        · exact hout (tmp_eq_base hl ▸ List.prefix_refl _)

end

end FileEngine.Local

namespace FileEngine.ObjectStore

open Go

/-! ## The object backends -/

/-- A program returns the same on two buckets, whatever the environment does. -/
def SameResult {α : Type} (prog : CloudM α) (b b' : Bucket) : Prop :=
  ∀ choices, (Prog.run prog.run choices b').value = (Prog.run prog.run choices b).value

/-- `Open`, `Exists` and `List` of S3 give the same results on two buckets. -/
def S3Storage.SameView (s : S3Storage) (b b' : Bucket) : Prop :=
  ∀ path, SameResult (s.open_ path) b b' ∧ SameResult (s.exists_ path) b b' ∧
    SameResult (s.list path) b b'

def GCSStorage.SameView (g : GCSStorage) (b b' : Bucket) : Prop :=
  ∀ path, SameResult (g.open_ path) b b' ∧ SameResult (g.exists_ path) b b' ∧
    SameResult (g.list path) b b'

/-- The temporary key of a write, given the first choice of the environment. -/
def tmpOf (finalKey : Str) (choice : Choice) : Str :=
  tmpKey finalKey (hexEncode (Bucket.randRead choice 8))

/-- `PutObject` fails, or it stores what is there already. -/
def S3Storage.LeavesNothing (s : S3Storage) (path : Str) (r : Reader) (choices : Nat → Choice)
    (b : Bucket) : Prop :=
  (r (32 * 1024)).err ≠ .eof ∨ (choices 1).fault ≠ none ∨
    b.lookup (tmpOf (s.key path) (choices 0)) = some (r (32 * 1024)).bytes

/-- How many parts an upload is sent in: one for each read that returned something. -/
def parts (chunks : List Str) : Nat := (chunks.filter (· ≠ [])).length

/-- A part of the upload or its end fails, or it stores what is there already. -/
def GCSStorage.LeavesNothing (g : GCSStorage) (path : Str) (r : Reader) (choices : Nat → Choice)
    (b : Bucket) : Prop :=
  let reads := r (32 * 1024)
  (∃ i ≤ parts (reads.chunks ++ [reads.last]), (choices (i + 1)).fault ≠ none) ∨
    b.lookup (tmpOf (g.key path) (choices 0)) = some reads.bytes

section

variable {b : Bucket} {key body : Str}

theorem insert_of_lookup (h : b.lookup key = some body) : b.insert key body = b := by
  refine Finmap.ext_lookup fun k => ?_
  by_cases hk : k = key
  · rw [hk, Finmap.lookup_insert, h]
  · rw [Finmap.lookup_insert_of_ne b hk]

/-- An object that is stored is seen, unless it was there before. -/
theorem lookup_of_sameResult (h : SameResult (get key) b (b.insert key body)) :
    b.lookup key = some body := by
  have hget := h fun _ => .smooth []
  have hnew : Bucket.get (b.insert key body) (.smooth []) key = .ok body := by
    simp [Bucket.get, Choice.smooth]
  have hold : Bucket.get b (.smooth []) key = .ok body := hget.symm.trans hnew
  unfold Bucket.get Choice.smooth at hold
  dsimp only at hold
  split at hold
  · cases hold
  · cases hold
    assumption

theorem keyIn_tmp (ns path suffix : Str) :
    keyIn ns (path ++ str ".tmp-" ++ suffix) = tmpKey (keyIn ns path) suffix := by
  have htrim : trimPrefix (path ++ str ".tmp-" ++ suffix) [slash] =
      trimPrefix path [slash] ++ str ".tmp-" ++ suffix := by
    cases path with
    | nil => rfl
    | cons c path =>
      by_cases hc : c = slash
      · simp [trimPrefix, hasPrefix, List.isPrefixOf, hc]
      · simp [trimPrefix, hasPrefix, List.isPrefixOf, Ne.symm hc]
  rw [keyIn_eq, keyIn_eq, keyPath, htrim, tmpKey, keyPath]
  simp only [List.append_assoc]

/-- A view that includes `Open`, before and after an object is stored under a temporary
key: nothing changes only if the object was there. -/
theorem view_insert_iff {View : Bucket → Prop} {ns : Str} (hsame : View b)
    (hopen : ∀ b', View b' → ∀ path, SameResult (get (keyIn ns path)) b b') (path : Str)
    (choice : Choice) : View (b.insert (tmpOf (keyIn ns path) choice) body) ↔
      b.lookup (tmpOf (keyIn ns path) choice) = some body := by
  constructor
  · intro h
    have hget := hopen _ h (path ++ str ".tmp-" ++ hexEncode (Bucket.randRead choice 8))
    rw [keyIn_tmp] at hget
    exact lookup_of_sameResult hget
  · intro h
    rw [insert_of_lookup h]
    exact hsame

theorem S3Storage.SameView.refl (s : S3Storage) (b : Bucket) : s.SameView b b :=
  fun _ => ⟨fun _ => rfl, fun _ => rfl, fun _ => rfl⟩

theorem GCSStorage.SameView.refl (g : GCSStorage) (b : Bucket) : g.SameView b b :=
  fun _ => ⟨fun _ => rfl, fun _ => rfl, fun _ => rfl⟩

/-! ## What a failed write leaves in a bucket -/

/-- No condition on the effects. -/
abbrev AnyEffect : Effect → Prop := fun _ => True

/-- Copying to the final key and removing the temporary one: if it fails, it has changed
nothing. -/
theorem copy_fails {src dst : Str} {ontoItself : Bool} :
    Prog.Wp AnyEffect (fun v b' => ∀ e, v = .error e → b' = b) (copy src dst ontoItself).run b := by
  refine Prog.wp_call fun choice v b' effects hexec => ⟨fun _ _ => trivial, ?_⟩
  rcases Bucket.copy_cases b choice src dst ontoItself with ⟨e, heq⟩ | ⟨body, _, _, heq⟩
  · cases heq.symm.trans hexec
    exact fun _ _ => rfl
  · cases heq.symm.trans hexec
    exact nofun

/-- What is done after the copy cannot fail: its error is ignored. -/
theorem thenAttempt_fails {p q : CloudM Unit}
    (hp : Prog.Wp AnyEffect (fun v b' => ∀ e, v = .error e → b' = b) p.run b) :
    Prog.Wp AnyEffect (fun v b' => ∀ e, v = .error e → b' = b)
      (do p; let _ ← Prog.attempt q).run b := by
  refine Prog.wp_bindE (Prog.wp_mono (fun v b' hv => ?_) hp)
  cases v with
  | error e => exact hv
  | ok _ =>
    exact Prog.wp_bindE (Prog.wp_attempt (Prog.wp_mono (fun _ _ _ => nofun) (Prog.wp_trivial _ _)))

/-- A program that starts with an upload. -/
theorem run_put (f : Unit → CloudM Unit) (choices : Nat → Choice)
    (hf : Prog.Wp AnyEffect (fun v b' => ∀ e, v = .error e → b' = b.insert key body)
      (f ()).run (b.insert key body)) {e : Str}
    (herr : (Prog.run (put key body >>= f).run choices b).value = .error e) :
    let b' := (Prog.run (put key body >>= f).run choices b).state
    ((choices 0).fault ≠ none ∧ b' = b) ∨
      ((choices 0).fault = none ∧ b' = b.insert key body) := by
  rcases Bucket.put_cases b (choices 0) key body with ⟨e', hfault, heq⟩ | ⟨hfault, heq⟩
  · have hvalue : (Prog.run (put key body).run choices b).value = .error e' :=
      congrArg Prod.fst heq
    have hstate : (Prog.run (put key body).run choices b).state = b :=
      congrArg (fun ran => ran.2.1) heq
    refine Or.inl ⟨by simp [hfault], ?_⟩
    exact (Prog.run_bindE_error hvalue f).2.trans hstate
  · have hvalue : (Prog.run (put key body).run choices b).value = .ok () := congrArg Prod.fst heq
    have hstate : (Prog.run (put key body).run choices b).state = b.insert key body :=
      congrArg (fun ran => ran.2.1) heq
    obtain ⟨hnextv, hnexts⟩ := Prog.run_bindE_ok hvalue f
    rw [hstate] at hnextv hnexts
    refine Or.inr ⟨hfault, hnexts.trans ?_⟩
    exact (Prog.run_of_wp hf _).2 e (hnextv.symm.trans herr)

theorem copyObject_fails {decode : Str → Str} {s : S3Storage} {dst source : Str} :
    Prog.Wp AnyEffect (fun v b' => ∀ e, v = .error e → b' = b)
      (s.copyObject decode dst source).run b := by
  unfold S3Storage.copyObject
  dsimp only
  split
  · exact copy_fails
  · exact fun _ _ => rfl

/-- S3: nothing, or the whole of the object under the temporary key. -/
theorem s3_atomicWrite_failed {decode : Str → Str} {s : S3Storage} {path : Str} {r : Reader}
    {choices : Nat → Choice} {e : Str}
    (herr : (Prog.run (s.atomicWrite decode path r).run choices b).value = .error e) :
    let b' := (Prog.run (s.atomicWrite decode path r).run choices b).state
    (((r (32 * 1024)).err ≠ .eof ∨ (choices 1).fault ≠ none) ∧ b' = b) ∨
      ((r (32 * 1024)).err = .eof ∧ (choices 1).fault = none ∧
        b' = b.insert (tmpOf (s.key path) (choices 0)) (r (32 * 1024)).bytes) := by
  intro b'
  let tmp := tmpOf (s.key path) (choices 0)
  let finish : Unit → CloudM Unit := fun _ => do
    s.copyObject decode (s.key path) (s.copySource tmp)
    let _ ← Prog.attempt (S3Storage.deleteObject tmp)
  -- the random name is drawn with the first choice
  have hvalue : (Prog.run (S3Storage.putObject tmp (r (32 * 1024)) >>= finish).run
      (fun n => choices (n + 1)) b).value = .error e := herr
  have hstate : b' = (Prog.run (S3Storage.putObject tmp (r (32 * 1024)) >>= finish).run
      (fun n => choices (n + 1)) b).state := rfl
  rw [hstate]
  unfold S3Storage.putObject at hvalue ⊢
  cases hread : (r (32 * 1024)).err with
  | other message =>
    exact Or.inl ⟨Or.inl (by simp), rfl⟩
  | eof =>
    rw [hread] at hvalue
    rcases run_put finish _ (thenAttempt_fails copyObject_fails) hvalue with
      ⟨hfault, hb'⟩ | ⟨hfault, hb'⟩
    · exact Or.inl ⟨Or.inr hfault, hb'⟩
    · exact Or.inr ⟨rfl, hfault, hb'⟩

theorem s3Write_invisible {decode : Str → Str} {s : S3Storage} {path : Str} {r : Reader}
    {choices : Nat → Choice} {e : Str}
    (herr : (Prog.run (s.atomicWrite decode path r).run choices b).value = .error e) :
    s.SameView b (Prog.run (s.atomicWrite decode path r).run choices b).state ↔
      s.LeavesNothing path r choices b := by
  rcases s3_atomicWrite_failed herr with ⟨hcond, hb'⟩ | ⟨hread, hfault, hb'⟩
  · rw [hb']
    refine iff_of_true (.refl s b) ?_
    exact hcond.elim Or.inl fun h => Or.inr (Or.inl h)
  · rw [hb']
    refine (view_insert_iff (S3Storage.SameView.refl s b) (fun _ h p => (h p).1) path
      (choices 0)).trans ?_
    simp [S3Storage.LeavesNothing, S3Storage.key, hread, hfault]

/-! ### GCS -/

theorem parts_cons {chunk : Str} (h : chunk ≠ []) (chunks : List Str) :
    parts (chunk :: chunks) = parts chunks + 1 := by
  simp [parts, h]

theorem run_send {α : Type} (chunk : Str) (f : Except Str Unit → Prog cloud α)
    (choices : Nat → Choice) (b : Bucket) :
    Prog.run (send chunk >>= f) choices b =
      Prog.run (f (exec (.send chunk) (choices 0) b).1) (fun n => choices (n + 1)) b := rfl

/-- The upload of some parts: it fails with one of them, or all of them are sent. -/
theorem run_copyChunks (w : GCSStorage.Writer) (chunks : List Str)
    (f : GCSStorage.Writer × Except Str Unit → Prog cloud (Except Str Unit))
    (choices : Nat → Choice) (b : Bucket) :
    ((∃ i < parts chunks, (choices i).fault ≠ none) ∧ ∃ w' e choices', w'.failed = true ∧
      Prog.run (GCSStorage.copyChunks w chunks >>= f) choices b =
        Prog.run (f (w', .error e)) choices' b) ∨
      ((∀ i < parts chunks, (choices i).fault = none) ∧
        Prog.run (GCSStorage.copyChunks w chunks >>= f) choices b =
          Prog.run (f (⟨w.key, w.content ++ chunks.flatten, w.failed⟩, .ok ()))
            (fun n => choices (n + parts chunks)) b) := by
  induction chunks generalizing w choices with
  | nil =>
    refine Or.inr ⟨nofun, ?_⟩
    rw [List.flatten_nil, List.append_nil]
    rfl
  | cons chunk chunks ih =>
    by_cases hchunk : chunk = []
    · subst hchunk
      exact ih w choices
    · rw [parts_cons hchunk, GCSStorage.copyChunks_cons w hchunk, Prog.bind_assoc, run_send]
      rcases send_cases b (choices 0) chunk with ⟨e, hfault, hexec⟩ | ⟨hfault, hexec⟩ <;> rw [hexec]
      · exact Or.inl ⟨⟨0, by omega, by simp [hfault]⟩, ⟨w.key, w.content, true⟩, e,
          fun n => choices (n + 1), rfl, rfl⟩
      · rcases ih ⟨w.key, w.content ++ chunk, w.failed⟩ (fun n => choices (n + 1)) with
          ⟨⟨i, hi, hne⟩, hfailed⟩ | ⟨hnone, hnext⟩
        · exact Or.inl ⟨⟨i + 1, by omega, hne⟩, hfailed⟩
        · refine Or.inr ⟨fun i hi => ?_, ?_⟩
          · cases i with
            | zero => exact hfault
            | succ i => exact hnone i (by omega)
          · rw [List.flatten_cons, ← List.append_assoc]
            exact hnext

/-- How the reader has ended. -/
def readResult : ReadErr → Except Str Unit
  | .eof => .ok ()
  | .other message => .error message

theorem run_ioCopy (w : GCSStorage.Writer) (reads : Reads)
    (f : GCSStorage.Writer × Except Str Unit → Prog cloud (Except Str Unit))
    (choices : Nat → Choice) (b : Bucket) :
    let m := parts (reads.chunks ++ [reads.last])
    ((∃ i < m, (choices i).fault ≠ none) ∧ ∃ w' e choices', w'.failed = true ∧
      Prog.run (GCSStorage.ioCopy w reads >>= f) choices b =
        Prog.run (f (w', .error e)) choices' b) ∨
      ((∀ i < m, (choices i).fault = none) ∧
        Prog.run (GCSStorage.ioCopy w reads >>= f) choices b =
          Prog.run (f (⟨w.key, w.content ++ reads.bytes, w.failed⟩, readResult reads.err))
            (fun n => choices (n + m)) b) := by
  intro m
  unfold GCSStorage.ioCopy
  rw [Prog.bind_assoc]
  rcases run_copyChunks w (reads.chunks ++ [reads.last]) _ choices b with
    ⟨hfault, w', e, choices', hfailed, hrun⟩ | ⟨hnone, hrun⟩
  · exact Or.inl ⟨hfault, w', e, choices', hfailed, hrun⟩
  · refine Or.inr ⟨hnone, hrun.trans ?_⟩
    rw [List.flatten_append, List.flatten_singleton]
    cases reads.err <;> rfl

/-- What GCS does with the writer once the reader has come to its end. -/
def finishUpload (g : GCSStorage) (path tmp : Str) :
    GCSStorage.Writer × Except Str Unit → CloudM Unit
  | (tw, .error e) => do
      let _ ← Prog.attempt tw.close
      throw e
  | (tw, .ok _) => do
      tw.close
      GCSStorage.copier (g.key path) tmp
      let _ ← Prog.attempt (GCSStorage.deleteKey tmp)

theorem gcs_atomicWrite_eq (g : GCSStorage) (path : Str) (r : Reader) :
    g.atomicWrite path r = randHex 8 >>= fun suffix =>
      (ExceptT.lift (GCSStorage.ioCopy (GCSStorage.newWriter (tmpKey (g.key path) suffix))
        (r (32 * 1024))) >>= finishUpload g path (tmpKey (g.key path) suffix)) := by
  unfold GCSStorage.atomicWrite
  dsimp only
  congr 1
  funext suffix
  congr 1
  funext ⟨tw, copied⟩
  cases copied <;> rfl

theorem run_lift {α : Type} (p : Prog cloud α) (f : α → CloudM Unit) :
    (ExceptT.lift p >>= f : CloudM Unit).run = p >>= fun a => (f a).run :=
  Prog.bind_assoc p _ _

/-- A failed upload: there is nothing to close. -/
theorem run_finishUpload_failed {g : GCSStorage} {path tmp : Str} {w : GCSStorage.Writer}
    (hfailed : w.failed = true) (e : Str) (choices : Nat → Choice) :
    (Prog.run (finishUpload g path tmp (w, .error e)).run choices b).state = b := by
  obtain ⟨key, content, failed⟩ := w
  cases hfailed
  rfl

/-- A complete upload: it is stored, unless closing fails. -/
theorem run_finishUpload {g : GCSStorage} {path tmp content : Str} {copied : Except Str Unit}
    {choices : Nat → Choice} {e : Str}
    (herr : (Prog.run (finishUpload g path tmp (⟨tmp, content, false⟩, copied)).run
      choices b).value = .error e) :
    let b' := (Prog.run (finishUpload g path tmp (⟨tmp, content, false⟩, copied)).run
      choices b).state
    ((choices 0).fault ≠ none ∧ b' = b) ∨
      ((choices 0).fault = none ∧ b' = b.insert tmp content) := by
  cases copied with
  | ok _ => exact run_put _ choices (thenAttempt_fails copy_fails) herr
  | error message =>
    rcases Bucket.put_cases b (choices 0) tmp content with ⟨e', hfault, heq⟩ | ⟨hfault, heq⟩
    · exact Or.inl ⟨by simp [hfault], congrArg (fun ran => ran.2.1) heq⟩
    · exact Or.inr ⟨hfault, congrArg (fun ran => ran.2.1) heq⟩

/-- GCS: nothing, or all that was read under the temporary key. -/
theorem gcs_atomicWrite_failed {g : GCSStorage} {path : Str} {r : Reader}
    {choices : Nat → Choice} {e : Str}
    (herr : (Prog.run (g.atomicWrite path r).run choices b).value = .error e) :
    let reads := r (32 * 1024)
    let b' := (Prog.run (g.atomicWrite path r).run choices b).state
    ((∃ i ≤ parts (reads.chunks ++ [reads.last]), (choices (i + 1)).fault ≠ none) ∧ b' = b) ∨
      ((∀ i ≤ parts (reads.chunks ++ [reads.last]), (choices (i + 1)).fault = none) ∧
        b' = b.insert (tmpOf (g.key path) (choices 0)) reads.bytes) := by
  intro reads b'
  let tmp := tmpOf (g.key path) (choices 0)
  have hrun : Prog.run (g.atomicWrite path r).run choices b =
      Prog.run (GCSStorage.ioCopy (GCSStorage.newWriter tmp) reads >>= fun copied =>
        (finishUpload g path tmp copied).run) (fun n => choices (n + 1)) b := by
    rw [gcs_atomicWrite_eq, ← run_lift]
    rfl
  rcases run_ioCopy (GCSStorage.newWriter tmp) reads
    (fun copied => (finishUpload g path tmp copied).run) (fun n => choices (n + 1)) b with
    ⟨⟨i, hi, hfault⟩, w', e', choices', hfailed, hcopy⟩ | ⟨hnone, hcopy⟩
  · refine Or.inl ⟨⟨i, le_of_lt hi, hfault⟩, ?_⟩
    exact (congrArg Ran.state (hrun.trans hcopy)).trans (run_finishUpload_failed hfailed e' _)
  · have hvalue := (congrArg Ran.value (hrun.trans hcopy)).symm.trans herr
    have hstate := congrArg Ran.state (hrun.trans hcopy)
    rcases run_finishUpload hvalue with ⟨hfault, hb'⟩ | ⟨hfault, hb'⟩
    · exact Or.inl ⟨⟨_, le_refl _, by simpa using hfault⟩, hstate.trans hb'⟩
    · refine Or.inr ⟨fun i hi => ?_, hstate.trans hb'⟩
      rcases Nat.lt_or_eq_of_le hi with hlt | rfl
      · exact hnone i hlt
      · simpa using hfault

theorem gcsWrite_invisible {g : GCSStorage} {path : Str} {r : Reader}
    {choices : Nat → Choice} {e : Str}
    (herr : (Prog.run (g.atomicWrite path r).run choices b).value = .error e) :
    g.SameView b (Prog.run (g.atomicWrite path r).run choices b).state ↔
      g.LeavesNothing path r choices b := by
  rcases gcs_atomicWrite_failed herr with ⟨hcond, hb'⟩ | ⟨hnone, hb'⟩
  · rw [hb']
    exact iff_of_true (.refl g b) (Or.inl hcond)
  · rw [hb']
    refine (view_insert_iff (GCSStorage.SameView.refl g b) (fun _ h p => (h p).1) path
      (choices 0)).trans (or_iff_right ?_).symm
    rintro ⟨i, hi, hfault⟩
    exact hfault (hnone i hi)

end

end FileEngine.ObjectStore

namespace FileEngine.FailedWrites

open Go Os Local ObjectStore

/-- **A failed write is invisible only if it fails early.** For each backend: if
`AtomicWrite` returns an error, then `Open`, `Exists` and `List` give the same results as
before, up to new directories on the way to the target, exactly if the failure came before
the temporary file or object, or that one cannot be seen or is not new. -/
theorem failedWrite_invisible_iff (s : LocalStorage) (s3 : S3Storage) (gcs : GCSStorage)
    (decode : Str → Str) (path : Str) (r : Reader) :
    (∀ (choices : Nat → Os.Choice) (t : FS) (e : Errno),
      (Prog.run (s.atomicWrite path r).run choices t).value = .error e →
      (Invisible s path t (Prog.run (s.atomicWrite path r).run choices t).state ↔
        LeavesNothing s path choices t)) ∧
    (∀ (choices : Nat → ObjectStore.Choice) (b : Bucket) (e : Str),
      (Prog.run (s3.atomicWrite decode path r).run choices b).value = .error e →
      (s3.SameView b (Prog.run (s3.atomicWrite decode path r).run choices b).state ↔
        s3.LeavesNothing path r choices b)) ∧
    (∀ (choices : Nat → ObjectStore.Choice) (b : Bucket) (e : Str),
      (Prog.run (gcs.atomicWrite path r).run choices b).value = .error e →
      (gcs.SameView b (Prog.run (gcs.atomicWrite path r).run choices b).state ↔
        gcs.LeavesNothing path r choices b)) :=
  ⟨fun _ _ _ herr => localWrite_invisible herr, fun _ _ _ herr => s3Write_invisible herr,
    fun _ _ _ herr => gcsWrite_invisible herr⟩

/-- A reader that fails after one byte. -/
def broken : Reader := fun _ => ⟨[str "x"], [], .other (str "broken")⟩

def brokenLocal : Ran os (Except Errno Unit) :=
  Prog.run (LocalStorage.atomicWrite ⟨str "/srv"⟩ (str "/f") broken).run
    (fun _ => .smooth (str "1")) FS.empty

def brokenGcs : Ran cloud (Except Str Unit) :=
  Prog.run (GCSStorage.atomicWrite ⟨str "bucket", []⟩ (str "/f") broken).run
    (fun _ => .smooth []) ∅

/-- Only the reader fails, and what it gave is left under the temporary name. -/
theorem failedWrite_leaves_part :
    let s : LocalStorage := ⟨str "/srv"⟩
    let g : GCSStorage := ⟨str "bucket", []⟩
    let tmp := str "/f.tmp-0000000000000000"
    brokenLocal.value = .error (.other (str "broken")) ∧
      s.open_ (.smooth []) (str "/.tmp-1") FS.empty = .error .noent ∧
      s.open_ (.smooth []) (str "/.tmp-1") brokenLocal.state = .ok (.file (str "x")) ∧
      brokenGcs.value = .error (str "broken") ∧
      (Prog.run (g.open_ tmp).run (fun _ => .smooth []) ∅).value = .error (str "NoSuchKey") ∧
      (Prog.run (g.open_ tmp).run (fun _ => .smooth []) brokenGcs.state).value = .ok (str "x") := by
  refine ⟨by decide, by rfl, by rfl, by rfl, by rfl, by rfl⟩

/-- Failures that come early enough: `CreateTemp`, `PutObject` and the first part. -/
theorem failedWrite_invisible_early :
    let r : Reader := oneByte
    let early : Os.Choice := ⟨some (0, .busy), [], []⟩
    let early' : ObjectStore.Choice := ⟨some (str "timeout"), [], []⟩
    let s : LocalStorage := ⟨str "/srv"⟩
    let s3 : S3Storage := ⟨str "bucket", []⟩
    let gcs : GCSStorage := ⟨str "bucket", []⟩
    Invisible s (str "/f") FS.empty (Prog.run (s.atomicWrite (str "/f") r).run
        (fun n => if n = 1 then early else .smooth []) FS.empty).state ∧
      s3.SameView ∅
        (Prog.run (s3.atomicWrite (fun h => h) (str "/f") r).run (fun _ => early') ∅).state ∧
      gcs.SameView ∅ (Prog.run (gcs.atomicWrite (str "/f") r).run (fun _ => early') ∅).state := by
  intro r early early' s s3 gcs
  obtain ⟨hlocal, hs3, hgcs⟩ := failedWrite_invisible_iff s s3 gcs (fun h => h) (str "/f") r
  refine ⟨?_, ?_, ?_⟩
  · exact (hlocal _ _ .busy (by decide)).mpr (Or.inr (Or.inl (by decide)))
  · exact (hs3 _ _ (str "timeout") (by rfl)).mpr (Or.inr (Or.inl (by decide)))
  · exact (hgcs _ _ (str "timeout") (by rfl)).mpr (Or.inl ⟨0, Nat.zero_le _, by decide⟩)

end FileEngine.FailedWrites
