import FileEngine.Go.Interleave
import FileEngine.Storage.ObjectMoves

/-!
# Concurrent writes to object storage

Any number of `AtomicWrite` calls run side by side on one bucket, one request at a time
and each of them allowed to fail. A writer owns its temporary key from the moment an
object stands there, until it deletes it; the random suffix makes the key new. Outside
of that key it changes the bucket once, when it copies the temporary object to the final
key. On GCS a reader that fails leaves a part of its content behind, but at the temporary
key only: no branch with an error reaches the copy.
-/

namespace FileEngine.ObjectStore

open Go

/-- How far a writer is: the temporary object that it owns, and whether it has copied it. -/
structure Stage where
  tmp : Option (Str × Str)
  installed : Bool

/-- What one request of a writer does. -/
inductive Does (Temp : Str → Prop) (target : Str) (r : Reader) :
    Stage → Bucket → Stage → Bucket → Prop
  | nothing {g : Stage} {b : Bucket} : Does Temp target r g b g b
  | store {b : Bucket} {key body : Str} : Temp key → b.lookup key = none →
      Does Temp target r ⟨none, false⟩ b ⟨some (key, body), false⟩ (b.insert key body)
  | install {b : Bucket} {key body : Str} : Whole r body →
      Does Temp target r ⟨some (key, body), false⟩ b ⟨some (key, body), true⟩
        (b.insert target body)
  | clear {b : Bucket} {key body : Str} :
      Does Temp target r ⟨some (key, body), true⟩ b ⟨none, true⟩ (b.erase key)

/-- A key that is neither the temporary key of the writer nor its target is left alone. -/
theorem Does.lookup {Temp : Str → Prop} {target : Str} {r : Reader} {g g' : Stage}
    {b b' : Bucket} (h : Does Temp target r g b g' b') {k : Str} (hk : b.lookup k ≠ none)
    (htmp : ∀ body, g.tmp ≠ some (k, body)) (htarget : k ≠ target) :
    b'.lookup k = b.lookup k := by
  cases h with
  | nothing => rfl
  | store _ hnew =>
    apply Finmap.lookup_insert_of_ne
    rintro rfl
    exact hk hnew
  | install _ => exact Finmap.lookup_insert_of_ne _ htarget
  | @clear _ key body =>
    apply Finmap.lookup_erase_ne
    rintro rfl
    exact htmp body rfl

section

variable {ι : Type} {Temp : ι → Str → Prop} {target : ι → Str} {r : ι → Reader}

/-- Every writer that has a temporary object has it for itself. -/
structure Owns (Temp : ι → Str → Prop) (γ : ι → Stage) (b : Bucket) : Prop where
  there : ∀ i k body, (γ i).tmp = some (k, body) → b.lookup k = some body
  temp : ∀ i k body, (γ i).tmp = some (k, body) → Temp i k
  disjoint : ∀ i j k body body', (γ i).tmp = some (k, body) → (γ j).tmp = some (k, body') → i = j

/-- The temporary object of a writer stays as the writer left it. -/
def Untouched (g : Stage) (b b' : Bucket) : Prop :=
  ∀ k body, g.tmp = some (k, body) → b.lookup k = some body → b'.lookup k = some body

theorem Owns.others (hnames : ∀ i k, Temp i k → ∀ j, k ≠ target j) {γ : ι → Stage} {b : Bucket}
    (h : Owns Temp γ b) {i : ι} {g' : Stage} {b' : Bucket}
    (hdoes : Does (Temp i) (target i) (r i) (γ i) b g' b') {j : ι} (hj : j ≠ i) :
    Untouched (γ j) b b' := by
  intro k body hg hk
  refine (hdoes.lookup (by simp [hk]) (fun body' hg' => ?_)
    (hnames j k (h.temp j k body hg) i)).trans hk
  exact hj (h.disjoint j i k body body' hg hg')

/-- What a reader of the bucket can find at `k`, in terms of the bucket at the start. -/
def OldOrWritten (target : ι → Str) (r : ι → Reader) (b b' : Bucket) (k : Str) : Prop :=
  b'.lookup k = b.lookup k ∨
    ∃ i body, target i = k ∧ Whole (r i) body ∧ b'.lookup k = some body

theorem OldOrWritten.of_eq {b b' b'' : Bucket} {k : Str} (h : OldOrWritten target r b b' k)
    (hsame : b''.lookup k = b'.lookup k) : OldOrWritten target r b b'' k := by
  unfold OldOrWritten
  rw [hsame]
  exact h

variable [DecidableEq ι]

theorem Owns.next (hnames : ∀ i k, Temp i k → ∀ j, k ≠ target j) {γ : ι → Stage} {b : Bucket}
    (h : Owns Temp γ b) {i : ι} {g' : Stage} {b' : Bucket}
    (hdoes : Does (Temp i) (target i) (r i) (γ i) b g' b') :
    Owns Temp (Function.update γ i g') b' := by
  -- the writer `i` itself
  have hself : ∀ k body, g'.tmp = some (k, body) → b'.lookup k = some body ∧ Temp i k ∧
      ∀ j body', j ≠ i → (γ j).tmp ≠ some (k, body') := by
    intro k body hg'
    have hold : (γ i).tmp = some (k, body) → Temp i k ∧
        ∀ j body', j ≠ i → (γ j).tmp ≠ some (k, body') := by
      intro hg
      exact ⟨h.temp i k body hg, fun j body' hj hg' => hj (h.disjoint j i k body' body hg' hg)⟩
    generalize hgi : γ i = gi at hdoes hold
    cases hdoes with
    | nothing => exact ⟨h.there i k body (by rw [hgi, hg']), hold hg'⟩
    | store htemp hnew =>
      cases hg'
      refine ⟨Finmap.lookup_insert _, htemp, fun j body' hj hg => ?_⟩
      have hthere := h.there j _ body' hg
      rw [hnew] at hthere
      cases hthere
    | install hwhole =>
      cases hg'
      refine ⟨?_, hold rfl⟩
      rw [Finmap.lookup_insert_of_ne _ (hnames i k (hold rfl).1 i)]
      exact h.there i k body (by rw [hgi])
    | clear => cases hg'
  refine ⟨fun j k body hg => ?_, fun j k body hg => ?_, fun j j' k body body' hg hg' => ?_⟩
  · rcases of_update (R := fun g : Stage => g.tmp = some (k, body)) hg with ⟨_, hnew⟩ | ⟨hj, hold⟩
    · exact (hself k body hnew).1
    · exact h.others hnames hdoes hj k body hold (h.there j k body hold)
  · rcases of_update (R := fun g : Stage => g.tmp = some (k, body)) hg with ⟨rfl, hnew⟩ | ⟨_, hold⟩
    · exact (hself k body hnew).2.1
    · exact h.temp j k body hold
  · refine owner_update (R := fun (g : Stage) k => ∃ body, g.tmp = some (k, body)) ?_ ?_ ⟨body, hg⟩
      ⟨body', hg'⟩
    · rintro j j' k ⟨body, hbody⟩ ⟨body', hbody'⟩
      exact h.disjoint j j' k body body' hbody hbody'
    · rintro k ⟨body, hbody⟩ j hj ⟨body', hbody'⟩
      exact (hself k body hbody).2.2 j body' hj hbody'

/-- The agreement of the writers. -/
def writing (Temp : ι → Str → Prop) (target : ι → Str) (r : ι → Reader)
    (hnames : ∀ i k, Temp i k → ∀ j, k ≠ target j) : Protocol cloud ι Stage where
  Rely _ := Untouched
  Guar i := Does (Temp i) (target i) (r i)
  Inv := Owns Temp
  rely_refl _ _ _ _ _ _ hk := hk
  rely_trans _ _ _ _ _ h h' k body hg hk := h' k body hg (h k body hg hk)
  stutter _ _ _ := .nothing
  step _ _ _ _ _ hinv hdoes := ⟨hinv.next hnames hdoes, fun _ hj => hinv.others hnames hdoes hj⟩

/-! ## What others can see -/

/-- Outside of the temporary keys of the writer nothing is changed. -/
def Quiet (Temp : Str → Prop) (b b' : Bucket) : Prop :=
  ∀ k, ¬ Temp k → b'.lookup k = b.lookup k

/-- The target holds the whole content of the reader, and nothing else is changed. -/
def Installs (target : Str) (r : Reader) (b b' : Bucket) : Prop :=
  (∃ body, Whole r body ∧ b'.lookup target = some body) ∧
    ∀ k, k ≠ target → b'.lookup k = b.lookup k

theorem writing_commitPoint (hnames : ∀ i k, Temp i k → ∀ j, k ≠ target j) :
    (writing Temp target r hnames).CommitPoint (fun g : Stage => g.installed = true)
      (fun i => Quiet (Temp i)) (fun i => Installs (target i) (r i)) where
  quiet γ b i g' b' hinv hdoes hdone k hk := by
    have hown : Owns Temp γ b := hinv
    change Does (Temp i) (target i) (r i) (γ i) b g' b' at hdoes
    generalize hgi : γ i = gi at hdoes hdone
    cases hdoes with
    | nothing => rfl
    | store htemp _ =>
      apply Finmap.lookup_insert_of_ne
      rintro rfl
      exact hk htemp
    | install _ => cases hdone rfl
    | @clear _ key body =>
      apply Finmap.lookup_erase_ne
      rintro rfl
      exact hk (hown.temp i k body (by rw [hgi]))
  commit γ b i g' b' hinv hdoes hstart hdone := by
    change Does (Temp i) (target i) (r i) (γ i) b g' b' at hdoes
    generalize γ i = gi at hdoes hstart
    cases hdoes with
    | nothing => exact absurd hdone hstart
    | store _ _ => cases hdone
    | @install _ _ body hwhole =>
      exact ⟨⟨body, hwhole, Finmap.lookup_insert _⟩,
        fun k hk => Finmap.lookup_insert_of_ne _ hk⟩
    | clear => exact absurd rfl hstart
  keeps i g b g' b' hdoes hdone := by
    change Does (Temp i) (target i) (r i) g b g' b' at hdoes
    cases hdoes with
    | nothing => exact hdone
    | store _ _ => cases hdone
    | install _ => rfl
    | clear => rfl

/-! ## The programs of the writers -/

/-- An object is stored only where there is none. -/
def Effect.Fresh (b : Bucket) : Effect → Prop
  | .stored k => b.lookup k = none
  | _ => True

instance (b : Bucket) : (e : Effect) → Decidable (e.Fresh b)
  | .stored k => inferInstanceAs (Decidable (b.lookup k = none))
  | .copied _ _ => inferInstanceAs (Decidable True)
  | .deleted _ => inferInstanceAs (Decidable True)

/-- Objects are stored at temporary keys only, and only where there is none. -/
def FreshTemp (Temp : Str → Prop) (b : Bucket) (e : Effect) : Prop :=
  (∀ k, e = .stored k → Temp k) ∧ e.Fresh b

variable {hnames : ∀ i k, Temp i k → ∀ j, k ≠ target j} {A : Bucket → Effect → Prop} {i : ι}
  {b : Bucket}

/-- A writer that is done knows it by its result. -/
abbrev Tells (res : Except Str Unit) (g : Stage) (_ : Bucket) : Prop :=
  res = .ok () ↔ g.installed = true

theorem follows_randHex {n : Nat} {g : Stage} {Q : Except Str Str → Stage → Bucket → Prop}
    (hQ : ∀ bytes b', Q (.ok (hexEncode bytes)) g b') :
    (writing Temp target r hnames).Follows A i Q (randHex n) g b :=
  fun _ _ _ _ => ⟨g, .nothing, hQ _ _⟩

theorem follows_put {key body : Str} {Q : Except Str Unit → Stage → Bucket → Prop}
    (herr : ∀ e b', Q (.error e) ⟨none, false⟩ b')
    (hok : ∀ b', b'.lookup key = some body → Q (.ok ()) ⟨some (key, body), false⟩ b') :
    (writing Temp target r hnames).Follows (FreshTemp (Temp i)) i Q (put key body)
      ⟨none, false⟩ b := by
  refine Protocol.follows_call fun b₁ _ choice res b₂ effects hexec heff => ?_
  change b₁.put choice key body = _ at hexec
  rcases b₁.put_cases choice key body with ⟨e, _, heq⟩ | ⟨_, heq⟩
  · cases heq.symm.trans hexec
    exact ⟨_, .nothing, herr e b₁⟩
  · cases heq.symm.trans hexec
    obtain ⟨htemp, hnew⟩ := heff _ List.mem_cons_self
    exact ⟨_, .store (htemp key rfl) hnew, hok _ (Finmap.lookup_insert _)⟩

/-- The end of both programs: the temporary object is copied, and then deleted if
possible. -/
theorem follows_finish {key body finalKey : Str} {ontoItself missingOk : Bool}
    (hfinal : finalKey = target i) (hwhole : Whole (r i) body) (hb : b.lookup key = some body) :
    (writing Temp target r hnames).Follows A i Tells
      (do copy key finalKey ontoItself
          let _ ← Prog.attempt (delete key missingOk) : CloudM Unit).run
      ⟨some (key, body), false⟩ b := by
  subst hfinal
  refine Protocol.follows_bindE (Protocol.follows_call fun b₁ hrely choice res b₂ effects hexec
    _ => ?_)
  have hb₁ : b₁.lookup key = some body := hrely key body rfl hb
  change b₁.copy choice key (target i) ontoItself = _ at hexec
  rcases b₁.copy_cases choice key (target i) ontoItself with ⟨e, heq⟩ | ⟨body', hbody', _, heq⟩
  · cases heq.symm.trans hexec
    exact ⟨_, .nothing, by simp [Tells]⟩
  · cases heq.symm.trans hexec
    obtain rfl : body = body' := Option.some.inj (hb₁.symm.trans hbody')
    refine ⟨_, .install hwhole, ?_⟩
    refine Protocol.follows_bindE (Protocol.follows_attempt (Protocol.follows_call
      fun b₃ _ choice' res' b₄ effects' hexec' _ => ?_))
    change b₃.delete choice' key missingOk = _ at hexec'
    have hdone : ∀ tmp, Tells (.ok ()) ⟨tmp, true⟩ b₄ := fun tmp => by simp [Tells]
    rcases b₃.delete_cases choice' key missingOk with ⟨e, heq'⟩ | heq'
    · cases heq'.symm.trans hexec'
      exact ⟨_, .nothing, hdone _⟩
    · cases heq'.symm.trans hexec'
      exact ⟨_, .clear, hdone _⟩

theorem follows_s3 {decode : Str → Str} {s : S3Storage} {path : Str}
    (htarget : target i = s.key path)
    (hnamed : ∀ bytes, decode (s.copySource (tmpKey (s.key path) (hexEncode bytes))) =
      s.bucket ++ [slash] ++ tmpKey (s.key path) (hexEncode bytes)) :
    (writing Temp target r hnames).Follows (FreshTemp (Temp i)) i Tells
      (s.atomicWrite decode path (r i)).run ⟨none, false⟩ b := by
  refine Protocol.follows_bindE (follows_randHex fun bytes b₁ => ?_)
  dsimp only
  rw [copyObject_eq (hnamed bytes), S3Storage.putObject]
  cases herr : (r i (32 * 1024)).err with
  | other message =>
    show Tells (.error message) ⟨none, false⟩ b₁
    simp [Tells]
  | eof =>
    refine Protocol.follows_bindE (follows_put (fun e b' => by simp [Tells]) fun b₂ hb₂ => ?_)
    exact follows_finish htarget.symm ⟨herr, rfl⟩ hb₂

/-! ## GCS -/

open GCSStorage in
/-- Sending changes nothing, and if no part failed, then all of it was sent. -/
theorem follows_copyChunks {g : Stage} (w : Writer) (chunks : List Str) :
    (writing Temp target r hnames).Follows A i
      (fun res g' _ => g' = g ∧ res.1.key = w.key ∧
        (res.2 = .ok () → res.1.failed = w.failed ∧
          res.1.content = w.content ++ chunks.flatten))
      (copyChunks w chunks) g b := by
  induction chunks generalizing w b with
  | nil => exact ⟨rfl, rfl, fun _ => ⟨rfl, by simp⟩⟩
  | cons chunk chunks ih =>
    by_cases hchunk : chunk = []
    · subst hchunk
      exact ih w
    · rw [copyChunks_cons w hchunk]
      refine Protocol.follows_bind fun b₁ _ choice _ => ⟨g, .nothing, ?_⟩
      show (writing Temp target r hnames).Follows A i _
        (afterSend w chunk chunks (exec (.send chunk) choice b₁).1) g b₁
      rcases send_cases b₁ choice chunk with ⟨e, _, hexec⟩ | ⟨_, hexec⟩ <;> rw [hexec]
      · exact ⟨rfl, rfl, nofun⟩
      · refine Protocol.follows_mono (fun res g' _ hres => ?_)
          (ih { w with content := w.content ++ chunk })
        simpa only [List.flatten_cons, List.append_assoc] using hres

open GCSStorage in
theorem follows_ioCopy {g : Stage} (key : Str) (reads : Reads) :
    (writing Temp target r hnames).Follows A i
      (fun res g' _ => g' = g ∧ res.1.key = key ∧
        (res.2 = .ok () → reads.err = .eof ∧ res.1.failed = false ∧
          res.1.content = reads.bytes))
      (ioCopy (newWriter key) reads) g b := by
  refine Protocol.follows_bind (Protocol.follows_mono (fun res g' b' hres => ?_)
    (follows_copyChunks (newWriter key) (reads.chunks ++ [reads.last])))
  obtain ⟨rfl, hkey, hcontent⟩ := hres
  obtain ⟨w, copied⟩ := res
  cases copied with
  | error e => exact ⟨rfl, hkey, nofun⟩
  | ok _ =>
    obtain ⟨hfailed, hbytes⟩ := hcontent rfl
    have hbytes' : w.content = reads.bytes := by simpa [newWriter, Reads.bytes] using hbytes
    cases herr : reads.err with
    | eof => exact ⟨rfl, hkey, fun _ => ⟨rfl, hfailed, hbytes'⟩⟩
    | other message => exact ⟨rfl, hkey, nofun⟩

theorem follows_close {w : GCSStorage.Writer} {Q : Except Str Unit → Stage → Bucket → Prop}
    (herr : ∀ e b', Q (.error e) ⟨none, false⟩ b')
    (hok : ∀ b', b'.lookup w.key = some w.content →
      Q (.ok ()) ⟨some (w.key, w.content), false⟩ b') :
    (writing Temp target r hnames).Follows (FreshTemp (Temp i)) i Q w.close ⟨none, false⟩ b := by
  unfold GCSStorage.Writer.close
  split
  · exact herr _ b
  · exact follows_put herr hok

theorem follows_gcs {s : GCSStorage} {path : Str} (htarget : target i = s.key path) :
    (writing Temp target r hnames).Follows (FreshTemp (Temp i)) i Tells
      (s.atomicWrite path (r i)).run ⟨none, false⟩ b := by
  refine Protocol.follows_bindE (follows_randHex fun bytes b₁ => ?_)
  refine Protocol.follows_bindE (Protocol.follows_bind (Protocol.follows_mono
    (fun res g' b₂ hres => ?_)
    (follows_ioCopy (tmpKey (s.key path) (hexEncode bytes)) (r i (32 * 1024)))))
  obtain ⟨rfl, hkey, hcontent⟩ := hres
  obtain ⟨w, copied⟩ := res
  cases copied with
  | error e =>
    -- the part that was sent may be stored at the temporary key
    refine Protocol.follows_bindE (Protocol.follows_attempt (follows_close ?_ ?_))
    · intro e' b'
      show Tells (.error e) ⟨none, false⟩ b'
      simp [Tells]
    · intro b' _
      show Tells (.error e) ⟨some (w.key, w.content), false⟩ b'
      simp [Tells]
  | ok _ =>
    obtain ⟨herr, _, hbytes⟩ := hcontent rfl
    refine Protocol.follows_bindE (follows_close (fun e b' => by simp [Tells]) fun b₃ hb₃ => ?_)
    rw [show w.key = tmpKey (s.key path) (hexEncode bytes) from hkey] at hb₃ ⊢
    exact follows_finish htarget.symm ⟨herr, hbytes⟩ hb₃

/-! ## All interleavings -/

/-- A key at which the call `i` stored an object of its own: its temporary key. -/
def TempOf (p : Pool cloud ι (Except Str Unit)) (sched : List (ι × Choice)) (i : ι) (k : Str) :
    Prop :=
  ∃ b, (i, b, Effect.stored k) ∈ p.log sched

/-- What the random suffixes are there for: an object is stored at a temporary key only if
there is none, and temporary keys are not targets. -/
structure FreshKeys (target : ι → Str) (p : Pool cloud ι (Except Str Unit))
    (sched : List (ι × Choice)) : Prop where
  new : p.Allowed (fun _ b e => Effect.Fresh b e) sched
  names : ∀ i k, TempOf p sched i k → ∀ j, k ≠ target j

/-- The writes of the pool are atomic: a key that is not temporary holds what it held at the
start or the whole content of a call for that key; a call that returned `nil` installed
its whole content in one of its requests, and changed at most its temporary key in the
others; a call that returned an error changed at most its temporary key. -/
structure WritesAtomic (target : ι → Str) (r : ι → Reader) (p : Pool cloud ι (Except Str Unit))
    (sched : List (ι × Choice)) : Prop where
  contents : ∀ k, (∀ i, ¬ TempOf p sched i k) →
    OldOrWritten target r p.state (p.run sched).state k
  success : ∀ i, (p.run sched).progs i = .ret (.ok ()) →
    p.CommitsOnce (fun j => Quiet (TempOf p sched j)) (fun j => Installs (target j) (r j)) sched i
  failure : ∀ i e, (p.run sched).progs i = .ret (.error e) →
    p.AllQuiet (fun j => Quiet (TempOf p sched j)) sched i
  frame : ∀ before i choice, Pool.Turn sched before i choice → ∀ k, k ≠ target i →
    ¬ TempOf p sched i k →
    (p.run (before ++ [(i, choice)])).state.lookup k = (p.run before).state.lookup k

theorem writesAtomic_of_follows {p : Pool cloud ι (Except Str Unit)}
    {sched : List (ι × Choice)} (hfresh : FreshKeys target p sched)
    (h : ∀ i, (writing (TempOf p sched) target r hfresh.names).Follows
      (FreshTemp (TempOf p sched i)) i Tells (p.progs i) ⟨none, false⟩ p.state) :
    WritesAtomic target r p sched := by
  have hstart : (writing (TempOf p sched) target r hfresh.names).Holds
      (fun i => FreshTemp (TempOf p sched i)) (fun _ res g => res = .ok () ↔ g.installed = true)
      (fun _ => ⟨none, false⟩) p := by
    refine ⟨?_, h⟩
    constructor <;> simp
  have hallowed : p.Allowed (fun i => FreshTemp (TempOf p sched i)) sched := by
    intro i b' e he
    exact ⟨fun k hk => ⟨b', hk ▸ he⟩, hfresh.new i b' e he⟩
  obtain ⟨γ, hcommitted, hholds⟩ := Protocol.run_commits (writing_commitPoint hfresh.names)
    hstart (by simp) hallowed
  refine ⟨fun k hk => ?_, fun i hret => ?_, fun i e hret => ?_, ?_⟩
  · refine Pool.run_invariant (J := fun b' => OldOrWritten target r p.state b' k) (Or.inl rfl)
      hcommitted.turns ?_ ?_
    · intro i b' b'' hold hquiet
      exact hold.of_eq (hquiet k (hk i))
    · rintro i b' b'' hold ⟨⟨body, hwhole, hlook⟩, hothers⟩
      by_cases hki : k = target i
      · exact Or.inr ⟨i, body, hki.symm, hwhole, hki ▸ hlook⟩
      · exact hold.of_eq (hothers k hki)
  · exact hcommitted.once i ((hholds.ended hret).mp rfl)
  · exact hcommitted.quiet i fun hdone => nomatch (hholds.ended hret).mpr hdone
  · intro before i choice hturn k htarget htemp
    rcases hcommitted.turns before i choice hturn with hquiet | hinstall
    · exact hquiet k htemp
    · exact hinstall.2 k htarget

/-- Calls of `AtomicWrite` side by side on one bucket. -/
def s3Writers (decode : Str → Str) (s : S3Storage) (path : ι → Str) (r : ι → Reader)
    (b : Bucket) : Pool cloud ι (Except Str Unit) :=
  ⟨fun i => (s.atomicWrite decode (path i) (r i)).run, b⟩

def gcsWriters (g : GCSStorage) (path : ι → Str) (r : ι → Reader) (b : Bucket) :
    Pool cloud ι (Except Str Unit) :=
  ⟨fun i => (g.atomicWrite (path i) (r i)).run, b⟩

/-- **Concurrent writes to object storage are atomic.** On both backends, after every
interleaving of the requests of any number of writers, with any failures of requests and
readers, as long as the temporary keys are new and S3 reads `CopySource` as it was meant. -/
theorem objectWrites_atomic (s : S3Storage) (g : GCSStorage) (path : ι → Str) (r : ι → Reader)
    (b : Bucket) (sched : List (ι × Choice)) :
    (∀ decode : Str → Str,
      (∀ i bytes, decode (s.copySource (tmpKey (s.key (path i)) (hexEncode bytes))) =
        s.bucket ++ [slash] ++ tmpKey (s.key (path i)) (hexEncode bytes)) →
      FreshKeys (fun i => s.key (path i)) (s3Writers decode s path r b) sched →
      WritesAtomic (fun i => s.key (path i)) r (s3Writers decode s path r b) sched) ∧
    (FreshKeys (fun i => g.key (path i)) (gcsWriters g path r b) sched →
      WritesAtomic (fun i => g.key (path i)) r (gcsWriters g path r b) sched) := by
  constructor
  · intro decode hnamed hfresh
    refine writesAtomic_of_follows hfresh fun i => ?_
    refine follows_s3 ?_ (hnamed i)
    rfl
  · intro hfresh
    refine writesAtomic_of_follows hfresh fun i => ?_
    refine follows_gcs ?_
    rfl

end

/-- The suffix of a temporary key needs no escaping. -/
theorem copySource_tmpKey {s : S3Storage} {key : Str} (h : 32 ∉ s.bucket ++ [slash] ++ key)
    (bytes : Str) : s.copySource (tmpKey key (hexEncode bytes)) =
      s.bucket ++ [slash] ++ tmpKey key (hexEncode bytes) := by
  apply S3Storage.urlPathEscape_of_not_mem
  intro hmem
  unfold tmpKey at hmem
  rw [← List.append_assoc, ← List.append_assoc, List.mem_append, List.mem_append] at hmem
  rcases hmem with (hmem | hmem) | hmem
  · exact h hmem
  · exact absurd hmem (by decide)
  · exact absurd (le_of_mem_hexEncode hmem) (by decide)

/-- The reader of the first writer fails after a part. -/
def contents (b : Bool) : Reader := fun _ =>
  if b then ⟨[str "x"], [], .other (str "broken pipe")⟩ else ⟨[str "y"], str "z", .eof⟩

/-- Two writers to `/a`, of which the second one comes through, up to the deletion of its
temporary object. -/
def meeting : List (Bool × Choice) :=
  [(true, .smooth [1]), (false, .smooth [2]), (true, .smooth []), (false, .smooth []),
    (false, .smooth []), (true, .smooth []), (false, .smooth []), (false, .smooth []),
    (false, ⟨some (str "timeout"), [], []⟩)]

theorem freshKeys_of_log {p : Pool cloud Bool (Except Str Unit)} {sched : List (Bool × Choice)}
    {key : Str} (h : ∀ x ∈ p.log sched, x.2.2 ≠ .stored key ∧ Effect.Fresh x.2.1 x.2.2) :
    FreshKeys (fun _ => key) p sched := by
  constructor
  · exact fun i b e he => (h _ he).2
  · rintro i k ⟨b, he⟩ j rfl
    exact (h _ he).1 rfl

theorem objectWrites_meeting :
    let p := s3Writers (fun header => header) ⟨str "bucket", []⟩ (fun _ => str "/a") contents ∅
    let q := gcsWriters ⟨str "bucket", []⟩ (fun _ => str "/a") contents ∅
    (q.run meeting).state.lookup (str "a") = some (str "yz") ∧
      WritesAtomic (fun _ => S3Storage.key ⟨str "bucket", []⟩ (str "/a")) contents p meeting ∧
      WritesAtomic (fun _ => GCSStorage.key ⟨str "bucket", []⟩ (str "/a")) contents q meeting := by
  intro p q
  obtain ⟨hs3, hgcs⟩ := objectWrites_atomic ⟨str "bucket", []⟩ ⟨str "bucket", []⟩
    (fun _ : Bool => str "/a") contents ∅ meeting
  refine ⟨by decide, hs3 (fun header => header) (fun _ bytes => ?_) ?_, hgcs ?_⟩
  · exact copySource_tmpKey (by decide) bytes
  · exact freshKeys_of_log (by decide)
  · exact freshKeys_of_log (by decide)

end FileEngine.ObjectStore
