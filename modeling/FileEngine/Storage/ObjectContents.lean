import FileEngine.Storage.Contents
import FileEngine.Storage.CopySource

/-!
# The object backends keep their contents

A path is an address by its key, and what is kept there is the object. Excepted are the temporary
keys, and the keys of placeholders, where `CreateFolder` stores an empty object. On S3 those keys
are excepted too that the provider does not read back as they were meant (`HasEscape`): there a
write may put the content of another object in place. `Wrote` says what an `AtomicWrite` has done,
whatever failed on the way.
-/

namespace FileEngine.ObjectStore

open Go

/-- A key that some write may use for its temporary object. -/
def TempKey (key : Str) : Prop :=
  ∃ finalKey bytes, bytes.length = 8 ∧ key = tmpKey finalKey (hexEncode bytes)

/-- The key of a placeholder. -/
def FolderKey (key : Str) : Prop := key = [] ∨ key.getLast? = some slash

theorem tempKey_tmpOf (finalKey : Str) (choice : Choice) : TempKey (tmpOf finalKey choice) := by
  refine ⟨finalKey, Bucket.randRead choice 8, ?_, rfl⟩
  simp only [Bucket.randRead, List.length_append, List.length_take, List.length_replicate]
  omega

theorem ne_tmpKey (finalKey suffix : Str) : finalKey ≠ tmpKey finalKey suffix := by
  intro hsame
  have := congrArg List.length hsame
  simp [tmpKey, str] at this

/-- Temporary keys end in a digit. -/
theorem not_tempKey_of_folderKey {key : Str} (h : FolderKey key) : ¬ TempKey key := by
  rintro ⟨finalKey, bytes, hlength, rfl⟩
  have hne : hexEncode bytes ≠ [] := by
    cases bytes with
    | nil => cases hlength
    | cons c bytes => simp [hexEncode]
  rcases h with hempty | hlast
  · simp [tmpKey, str] at hempty
  · rw [tmpKey, List.getLast?_append_of_ne_nil _ hne] at hlast
    exact absurd (le_of_mem_hexEncode (List.mem_of_getLast? hlast)) (by decide)

theorem keyPath_suffix (path : Str) : keyPath path <:+ path := by
  unfold keyPath trimPrefix
  split
  · exact List.drop_suffix _ _
  · exact List.suffix_rfl

theorem folderKey_placeholder (ns path : Str) : FolderKey (keyIn ns (placeholder path)) := by
  have hlast : (placeholder path).getLast? = some slash := List.getLast?_concat
  obtain ⟨front, hfront⟩ := keyPath_suffix (placeholder path)
  rw [keyIn_eq]
  by_cases hkey : keyPath (placeholder path) = []
  · rw [hkey, List.append_nil, nsPart]
    split
    · exact Or.inl rfl
    · exact Or.inr List.getLast?_concat
  · right
    rw [List.getLast?_append_of_ne_nil _ hkey, ← hlast]
    nth_rewrite 2 [← hfront]
    exact (List.getLast?_append_of_ne_nil _ hkey).symm

/-! ## What a write has done -/

/-- What a write has done that returned `v`. If it succeeded there is an object under the final
key, and under the condition `C` that is the body. It may have changed its temporary object, and
nothing else. -/
structure Wrote (C : Prop) (tmp finalKey body : Str) (b : Bucket) (v : Except Str Unit)
    (b' : Bucket) : Prop where
  installed : v = .ok () → ∃ found, b'.lookup finalKey = some found ∧ (C → found = body)
  others : ∀ k, k ≠ tmp → (k = finalKey → v ≠ .ok ()) → b'.lookup k = b.lookup k

section

variable {C : Prop} {tmp finalKey body : Str} {b b' : Bucket} {v : Except Str Unit}

theorem wrote_none (e : Str) : Wrote C tmp finalKey body b (.error e) b :=
  ⟨nofun, fun _ _ _ => rfl⟩

/-- What was stored under the temporary key before does not matter. -/
theorem Wrote.before {content : Str} (h : Wrote C tmp finalKey body (b.insert tmp content) v b') :
    Wrote C tmp finalKey body b v b' := by
  refine ⟨h.installed, fun k hk hfinal => ?_⟩
  rw [h.others k hk hfinal, Finmap.lookup_insert_of_ne _ hk]

theorem wp_copy_wrote {src : Str} {ontoItself : Bool} (hsrc : C → b.lookup src = some body) :
    Prog.Wp AnyEffect (Wrote C tmp finalKey body b) (copy src finalKey ontoItself).run b := by
  refine Prog.wp_call fun choice v b' effects hexec => ⟨fun _ _ => trivial, ?_⟩
  rcases b.copy_cases choice src finalKey ontoItself with ⟨e, heq⟩ | ⟨body', hbody, _, heq⟩
  · cases heq.symm.trans hexec
    exact wrote_none e
  · cases heq.symm.trans hexec
    constructor
    · refine fun _ => ⟨body', Finmap.lookup_insert b, fun hC => ?_⟩
      exact Option.some.inj (hbody.symm.trans (hsrc hC))
    · intro k _ hfinal
      exact Finmap.lookup_insert_of_ne _ fun hk => hfinal hk rfl

/-- Removing the temporary object, or trying to. -/
theorem wp_thenDelete {p : CloudM Unit} {missingOk : Bool} (hne : finalKey ≠ tmp)
    (hp : Prog.Wp AnyEffect (Wrote C tmp finalKey body b) p.run b) :
    Prog.Wp AnyEffect (Wrote C tmp finalKey body b)
      (do p; let _ ← Prog.attempt (delete tmp missingOk)).run b := by
  refine Prog.wp_bindE (Prog.wp_mono (fun v b₁ hwrote => ?_) hp)
  cases v with
  | error e => exact hwrote
  | ok _ =>
    refine Prog.wp_bindE (Prog.wp_attempt (Prog.wp_call fun choice v b₂ effects hexec =>
      ⟨fun _ _ => trivial, ?_⟩))
    rcases b₁.delete_cases choice tmp missingOk with ⟨e, heq⟩ | heq
    · cases heq.symm.trans hexec
      exact hwrote
    · cases heq.symm.trans hexec
      constructor
      · rw [Finmap.lookup_erase_ne hne]
        exact hwrote.installed
      · intro k hk hfinal
        rw [Finmap.lookup_erase_ne hk]
        exact hwrote.others k hk hfinal

/-- Storing the temporary object first. -/
theorem wp_put_wrote {content : Str} {f : Unit → CloudM Unit}
    (hf : Prog.Wp AnyEffect (Wrote C tmp finalKey body (b.insert tmp content)) (f ()).run
      (b.insert tmp content)) :
    Prog.Wp AnyEffect (Wrote C tmp finalKey body b) (put tmp content >>= f).run b := by
  refine Prog.wp_bindE (Prog.wp_call fun choice v b₁ effects hexec => ⟨fun _ _ => trivial, ?_⟩)
  rcases b.put_cases choice tmp content with ⟨e, _, heq⟩ | ⟨_, heq⟩
  · cases heq.symm.trans hexec
    exact wrote_none e
  · cases heq.symm.trans hexec
    exact Prog.wp_mono (fun _ _ h => h.before) hf

/-! ### S3 -/

theorem wp_copyObject_wrote {s : S3Storage} (hC : C → ¬ HasEscape (s.bucket ++ [slash] ++ tmp))
    (hbody : b.lookup tmp = some body) :
    Prog.Wp AnyEffect (Wrote C tmp finalKey body b)
      (s.copyObject percentDecode finalKey (s.copySource tmp)).run b := by
  by_cases hesc : HasEscape (s.bucket ++ [slash] ++ tmp)
  · -- if anything is copied, it may be another object
    unfold S3Storage.copyObject
    dsimp only
    split
    · exact wp_copy_wrote fun h => absurd hesc (hC h)
    · exact wrote_none _
  · rw [copyObject_eq ((copySource_iff s tmp).mpr hesc)]
    exact wp_copy_wrote fun _ => hbody

theorem s3_atomicWrite_wrote (s : S3Storage) (path : Str) (r : Reader) (b : Bucket) :
    Prog.Wp AnyEffect (fun v b' => ∃ choice, Wrote (¬ HasEscape (s.bucket ++ [slash] ++ s.key path))
        (tmpOf (s.key path) choice) (s.key path) (r (32 * 1024)).bytes b v b')
      (s.atomicWrite percentDecode path r).run b := by
  refine fun choice => ⟨nofun, ?_⟩
  let tmp := tmpOf (s.key path) choice
  show Prog.Wp AnyEffect _ (finishWrite s path r tmp).run b
  refine Prog.wp_mono (fun v b' h => ⟨choice, h⟩) ?_
  unfold finishWrite S3Storage.putObject
  cases (r (32 * 1024)).err with
  | other message => exact wrote_none message
  | eof =>
    refine wp_put_wrote (wp_thenDelete (ne_tmpKey _ _) (wp_copyObject_wrote (fun hC => ?_) ?_))
    · exact mt (hasEscape_tmpKey _ _ _).mp hC
    · exact Finmap.lookup_insert b

/-! ### GCS -/

theorem wp_copyChunks (w : GCSStorage.Writer) (chunks : List Str) :
    Prog.Wp AnyEffect (fun out b' => b' = b ∧ out.1.key = w.key ∧
        (out.2 = .ok () → out.1 = { w with content := w.content ++ chunks.flatten }))
      (GCSStorage.copyChunks w chunks) b := by
  induction chunks generalizing w with
  | nil => exact ⟨rfl, rfl, fun _ => by simp⟩
  | cons chunk chunks ih =>
    by_cases hchunk : chunk = []
    · subst hchunk
      exact ih w
    · rw [GCSStorage.copyChunks_cons w hchunk]
      refine Prog.wp_bind (Prog.wp_call fun choice sent b' effects hexec =>
        ⟨fun _ _ => trivial, ?_⟩)
      rcases send_cases b choice chunk with ⟨e, _, heq⟩ | ⟨_, heq⟩
      · cases heq.symm.trans hexec
        exact ⟨rfl, rfl, fun h => by cases h⟩
      · cases heq.symm.trans hexec
        have hrest := ih { w with content := w.content ++ chunk }
        simp only [List.append_assoc] at hrest
        exact hrest

theorem wp_ioCopy (w : GCSStorage.Writer) (reads : Reads) :
    Prog.Wp AnyEffect (fun out b' => b' = b ∧ out.1.key = w.key ∧
        (out.2 = .ok () → out.1 = { w with content := w.content ++ reads.bytes }))
      (GCSStorage.ioCopy w reads) b := by
  refine Prog.wp_bind (Prog.wp_mono ?_ (wp_copyChunks w (reads.chunks ++ [reads.last])))
  rintro ⟨w', copied⟩ b' ⟨rfl, hkey, hall⟩
  cases copied with
  | error e => exact ⟨rfl, hkey, fun h => by cases h⟩
  | ok _ =>
    cases reads.err with
    | other message => exact ⟨rfl, hkey, fun h => by cases h⟩
    | eof => exact ⟨rfl, hkey, fun _ => by simpa [Reads.bytes] using hall rfl⟩

/-- After a failed copy the object is closed, and whether it is stored or not, the write fails. -/
theorem wp_closeFailed {w : GCSStorage.Writer} (hkey : w.key = tmp) (e : Str) :
    Prog.Wp AnyEffect (Wrote C tmp finalKey body b)
      (do let _ ← Prog.attempt w.close; throw e : CloudM Unit).run b := by
  have hfailed : Wrote C tmp finalKey body (b.insert tmp w.content) (.error e)
      (b.insert tmp w.content) := wrote_none e
  refine Prog.wp_bindE (Prog.wp_attempt ?_)
  unfold GCSStorage.Writer.close
  split
  · exact wrote_none e
  · refine Prog.wp_call fun choice v b₁ effects hexec => ⟨fun _ _ => trivial, ?_⟩
    rcases b.put_cases choice w.key w.content with ⟨_, _, heq⟩ | ⟨_, heq⟩
    · cases heq.symm.trans hexec
      exact wrote_none e
    · cases heq.symm.trans hexec
      exact hkey ▸ hfailed.before

theorem gcs_atomicWrite_wrote (g : GCSStorage) (path : Str) (r : Reader) (b : Bucket) :
    Prog.Wp AnyEffect (fun v b' => ∃ choice, Wrote True (tmpOf (g.key path) choice) (g.key path)
        (r (32 * 1024)).bytes b v b')
      (g.atomicWrite path r).run b := by
  rw [gcs_atomicWrite_eq]
  refine fun choice => ⟨nofun, Prog.wp_mono (fun v b' h => ⟨choice, h⟩) ?_⟩
  let tmp := tmpOf (g.key path) choice
  show Prog.Wp AnyEffect _ (ExceptT.lift (GCSStorage.ioCopy (GCSStorage.newWriter tmp)
    (r (32 * 1024))) >>= finishUpload g path tmp).run b
  rw [run_lift]
  refine Prog.wp_bind (Prog.wp_mono ?_ (wp_ioCopy (GCSStorage.newWriter tmp) (r (32 * 1024))))
  rintro ⟨w, copied⟩ b' ⟨rfl, hkey, hall⟩
  cases copied with
  | error e => exact wp_closeFailed hkey e
  | ok _ =>
    obtain rfl := hall rfl
    refine wp_put_wrote (wp_thenDelete (ne_tmpKey _ _) (wp_copy_wrote fun _ => ?_))
    exact Finmap.lookup_insert _

end

/-! ## The contract -/

theorem get_ok {b : Bucket} {choice : Choice} {key body : Str} (h : b.get choice key = .ok body) :
    b.lookup key = some body := by
  unfold Bucket.get at h
  split at h
  · cases h
  · split at h
    · cases h
    · cases h
      assumption

/-- A reader of an object gives the object, up to where reading breaks off. -/
theorem openBody_ok {key : Str} {e : Exposed Bucket Choice} {r : Reader}
    (h : (openBody (get key) e).1 = .ok r) :
    ∃ body, e.state.lookup key = some body ∧ r = cutReader body (e.coming 0).cut := by
  have hopened : ((e.state.get ((e.coming 0).choices 0) key).mapError id).map
      (fun body => cutReader body (e.coming 0).cut) = .ok r := h
  cases hget : e.state.get ((e.coming 0).choices 0) key with
  | error e' =>
    rw [hget] at hopened
    cases hopened
  | ok body =>
    rw [hget] at hopened
    exact ⟨body, get_ok hget, (Except.ok.inj hopened).symm⟩

theorem openBody_eof {key : Str} {e : Exposed Bucket Choice} {r : Reader} {n : Nat}
    (h : (openBody (get key) e).1 = .ok r) (heof : (r n).err = .eof) :
    e.state.lookup key = some (r n).bytes := by
  obtain ⟨body, hbody, rfl⟩ := openBody_ok h
  rw [hbody, (cutReader_spec body _ n).1 heof]

theorem openBody_front {key : Str} {e : Exposed Bucket Choice} {r : Reader} (n : Nat)
    (h : (openBody (get key) e).1 = .ok r) :
    (r n).bytes <+: (e.state.lookup key).getD [] := by
  obtain ⟨body, hbody, rfl⟩ := openBody_ok h
  rw [hbody]
  exact (cutReader_spec body _ n).2

/-- Storing an object, as the next operation. -/
theorem exposed_put (key body : Str) (e : Exposed Bucket Choice) :
    (∃ message, Exposed.run (M := cloud) id (put key body) e =
        (.error message, e.next e.state)) ∨
      Exposed.run (M := cloud) id (put key body) e =
        (.ok (), e.next (e.state.insert key body)) := by
  have hrun : Exposed.run (M := cloud) id (put key body) e =
      ((e.state.put ((e.coming 0).choices 0) key body).1.mapError id,
        e.next (e.state.put ((e.coming 0).choices 0) key body).2.1) := rfl
  rcases e.state.put_cases ((e.coming 0).choices 0) key body with ⟨message, _, heq⟩ | ⟨_, heq⟩
  · exact Or.inl ⟨message, hrun.trans (by rw [heq]; rfl)⟩
  · exact Or.inr (hrun.trans (by rw [heq]; rfl))

theorem put_placeholder {ns path k : Str} (hk : ¬ FolderKey k) (e : Exposed Bucket Choice) :
    (Exposed.run (M := cloud) id (put (keyIn ns (placeholder path)) []) e).2.state.lookup k =
      e.state.lookup k := by
  rcases exposed_put (keyIn ns (placeholder path)) [] e with ⟨message, heq⟩ | heq
  · rw [heq]
    rfl
  · rw [heq]
    refine Finmap.lookup_insert_of_ne _ fun hsame => hk ?_
    exact hsame ▸ folderKey_placeholder ns path

theorem list_state {α : Type} (delimited : Bool) (keyPrefix : Str) (shown : List Page → α)
    (e : Exposed Bucket Choice) :
    (Exposed.run (M := cloud) id (do
      let pages ← list delimited keyPrefix
      return shown pages) e).2.state = e.state := by
  have hwp : Prog.Wp AnyEffect (fun _ b' => b' = e.state) (do
      let pages ← list delimited keyPrefix
      return shown pages : CloudM α).run e.state := by
    refine Prog.wp_bindE (Prog.wp_call fun choice pages b' effects hexec =>
      ⟨fun _ _ => trivial, ?_⟩)
    cases hexec
    cases e.state.pages choice delimited keyPrefix <;> rfl
  exact (Exposed.run_of_wp (M := cloud) (e := e) hwp id).elim fun _ h => h.2

/-- What an `AtomicWrite` of some content does, on either backend. -/
structure WriteLaw (C : Prop) (finalKey content : Str) (e : Exposed Bucket Choice)
    (out : Except Str Unit × Exposed Bucket Choice) : Prop where
  success : out.1 = .ok () →
    ∃ found, out.2.state.lookup finalKey = some found ∧ (C → found = content)
  others : ∀ k, ¬ TempKey k → (k = finalKey → out.1 ≠ .ok ()) →
    out.2.state.lookup k = e.state.lookup k
  brings : ∀ k, out.2.state.lookup k ≠ none →
    e.state.lookup k ≠ none ∨ k = finalKey ∨ ∃ choice, k = tmpOf finalKey choice

/-- What is to be said of a write, from what it has done. -/
theorem Wrote.laws {C : Prop} {finalKey body : Str} {e e' : Exposed Bucket Choice}
    {result : Except Str Unit}
    (h : ∃ v, result = v.mapError id ∧ ∃ choice,
      Wrote C (tmpOf finalKey choice) finalKey body e.state v e'.state) :
    WriteLaw C finalKey body e (result, e') := by
  obtain ⟨v, rfl, choice, hwrote⟩ := h
  refine ⟨fun hok => ?_, fun k hk hfinal => ?_, fun k hthere => ?_⟩
  · exact hwrote.installed (mapError_ok.mp hok)
  · refine hwrote.others k ?_ fun he hok => hfinal he (mapError_ok.mpr hok)
    rintro rfl
    exact hk (tempKey_tmpOf finalKey choice)
  · by_cases hk : k = finalKey ∨ k = tmpOf finalKey choice
    · exact Or.inr (hk.imp_right fun htmp => ⟨choice, htmp⟩)
    · obtain ⟨hfinal, htmp⟩ := not_or.mp hk
      exact Or.inl (hwrote.others k htmp (fun he => absurd he hfinal) ▸ hthere)

section

variable {C : Prop} {finalKey content : Str} {e : Exposed Bucket Choice}
  {out : Except Str Unit × Exposed Bucket Choice}

theorem WriteLaw.installed (h : WriteLaw C finalKey content e out) (hC : C)
    (hok : out.1 = .ok ()) : out.2.state.lookup finalKey = some content := by
  obtain ⟨found, hfound, hbody⟩ := h.success hok
  rw [hfound, hbody hC]

/-- An object that is there stays, if not its content. -/
theorem WriteLaw.stays (h : WriteLaw C finalKey content e out) {k : Str} (hk : ¬ TempKey k)
    (hthere : e.state.lookup k ≠ none) : out.2.state.lookup k ≠ none := by
  by_cases hinstalled : k = finalKey ∧ out.1 = .ok ()
  · obtain ⟨rfl, hok⟩ := hinstalled
    obtain ⟨found, hfound, _⟩ := h.success hok
    simp [hfound]
  · rw [h.others k hk fun hsame hok => hinstalled ⟨hsame, hok⟩]
    exact hthere

end

theorem s3_writeLaw (s : S3Storage) (path c : Str) (e : Exposed Bucket Choice) :
    WriteLaw (¬ HasEscape (s.bucket ++ [slash] ++ s.key path)) (s.key path) c e
      ((s.exposed percentDecode).atomicWrite path (newReader c) e) := by
  have hlaws := Wrote.laws (Exposed.run_of_wp (M := cloud) (e := e)
    (s3_atomicWrite_wrote s path (newReader c) e.state) id)
  rw [bytes_newReader] at hlaws
  exact hlaws

theorem gcs_writeLaw (g : GCSStorage) (path c : Str) (e : Exposed Bucket Choice) :
    WriteLaw True (g.key path) c e (g.exposed.atomicWrite path (newReader c) e) := by
  have hlaws := Wrote.laws (Exposed.run_of_wp (M := cloud) (e := e)
    (gcs_atomicWrite_wrote g path (newReader c) e.state) id)
  rw [bytes_newReader] at hlaws
  exact hlaws

/-- **The S3 backend keeps its contents**, apart from keys that the provider reads otherwise. -/
def S3Storage.contents (s : S3Storage) : Contents (s.exposed percentDecode) Str where
  addr := s.key
  kept e k := e.state.lookup k
  Unkept k := TempKey k ∨ FolderKey k ∨ HasEscape (s.bucket ++ [slash] ++ k)
  write_ok path c e h := (s3_writeLaw s path c e).installed fun hesc => h (Or.inr (Or.inr hesc))
  write_keeps path c e k h := (s3_writeLaw s path c e).others k fun htemp => h (Or.inl htemp)
  createFolder_keeps _ e _ h := put_placeholder (fun hfolder => h (Or.inr (Or.inl hfolder))) e
  list_keeps _ e := congrArg (fun b k => Finmap.lookup k b) (list_state _ _ _ e)
  open_keeps _ _ := rfl
  open_eof _ _ _ _ := openBody_eof
  open_front _ _ _ n := openBody_front n

/-- **The GCS backend keeps its contents.** -/
def GCSStorage.contents (g : GCSStorage) : Contents g.exposed Str where
  addr := g.key
  kept e k := e.state.lookup k
  Unkept k := TempKey k ∨ FolderKey k
  write_ok path c e _ := (gcs_writeLaw g path c e).installed trivial
  write_keeps path c e k h := (gcs_writeLaw g path c e).others k fun htemp => h (Or.inl htemp)
  createFolder_keeps _ e _ h := put_placeholder (fun hfolder => h (Or.inr hfolder)) e
  list_keeps _ e := congrArg (fun b k => Finmap.lookup k b) (list_state _ _ _ e)
  open_keeps _ _ := rfl
  open_eof _ _ _ _ := openBody_eof
  open_front _ _ _ n := openBody_front n

/-! ## Folders -/

theorem put_ok {key body : Str} {e : Exposed Bucket Choice}
    (h : (Exposed.run (M := cloud) id (put key body) e).1 = .ok ()) :
    (Exposed.run (M := cloud) id (put key body) e).2.state.lookup key ≠ none := by
  rcases exposed_put key body e with ⟨message, heq⟩ | heq
  · rw [heq] at h
    cases h
  · rw [heq]
    simp [Exposed.next]

theorem put_stays {key body k : Str} {e : Exposed Bucket Choice} (h : e.state.lookup k ≠ none) :
    (Exposed.run (M := cloud) id (put key body) e).2.state.lookup k ≠ none := by
  rcases exposed_put key body e with ⟨message, heq⟩ | heq
  · rw [heq]
    exact h
  · rw [heq]
    by_cases hk : k = key
    · subst hk
      simp [Exposed.next]
    · exact (Finmap.lookup_insert_of_ne _ hk).symm ▸ h

/-- Folders of an object backend are placeholders. -/
def S3Storage.folders (s : S3Storage) : Folders (s.exposed percentDecode) where
  has e path := e.state.lookup (s.key (placeholder path)) ≠ none
  createFolder_ok _ _ := put_ok
  createFolder_keeps _ _ _ := put_stays
  write_keeps path c e folder := (s3_writeLaw s path c e).stays
    (not_tempKey_of_folderKey (folderKey_placeholder s.ns folder))
  list_keeps _ e _ h := (list_state _ _ _ e).symm ▸ h
  open_keeps _ _ _ h := h

def GCSStorage.folders (g : GCSStorage) : Folders g.exposed where
  has e path := e.state.lookup (g.key (placeholder path)) ≠ none
  createFolder_ok _ _ := put_ok
  createFolder_keeps _ _ _ := put_stays
  write_keeps path c e folder := (gcs_writeLaw g path c e).stays
    (not_tempKey_of_folderKey (folderKey_placeholder g.ns folder))
  list_keeps _ e _ h := (list_state _ _ _ e).symm ▸ h
  open_keeps _ _ _ h := h

/-! ## Growth -/

theorem put_brings {key body k : Str} {e : Exposed Bucket Choice}
    (h : (Exposed.run (M := cloud) id (put key body) e).2.state.lookup k ≠ none) :
    e.state.lookup k ≠ none ∨ k = key := by
  rcases exposed_put key body e with ⟨message, heq⟩ | heq
  · rw [heq] at h
    exact Or.inl h
  · rw [heq] at h
    by_cases hk : k = key
    · exact Or.inr hk
    · have hsame : (e.state.insert key body).lookup k = e.state.lookup k :=
        Finmap.lookup_insert_of_ne _ hk
      exact Or.inl (hsame ▸ h)

/-- The objects of a bucket: no object goes away, except for temporary ones. -/
def S3Storage.growth (s : S3Storage) : Growth (s.exposed percentDecode) Str where
  has e k := e.state.lookup k ≠ none
  Loose := TempKey
  WriteBrings path k := k = s.key path ∨ ∃ choice, k = tmpOf (s.key path) choice
  FolderBrings path k := k = s.key (placeholder path)
  write_keeps path c e _ := (s3_writeLaw s path c e).stays
  write_brings path c e := (s3_writeLaw s path c e).brings
  createFolder_keeps _ _ _ := put_stays
  createFolder_brings _ _ _ := put_brings
  list_same _ e := congrArg (fun b k => Finmap.lookup k b ≠ none) (list_state _ _ _ e)
  open_same _ _ := rfl

def GCSStorage.growth (g : GCSStorage) : Growth g.exposed Str where
  has e k := e.state.lookup k ≠ none
  Loose := TempKey
  WriteBrings path k := k = g.key path ∨ ∃ choice, k = tmpOf (g.key path) choice
  FolderBrings path k := k = g.key (placeholder path)
  write_keeps path c e _ := (gcs_writeLaw g path c e).stays
  write_brings path c e := (gcs_writeLaw g path c e).brings
  createFolder_keeps _ _ _ := put_stays
  createFolder_brings _ _ _ := put_brings
  list_same _ e := congrArg (fun b k => Finmap.lookup k b ≠ none) (list_state _ _ _ e)
  open_same _ _ := rfl

end FileEngine.ObjectStore
