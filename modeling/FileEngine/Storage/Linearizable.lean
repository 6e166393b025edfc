import FileEngine.Go.Linearize
import FileEngine.Storage.ObjectWriters
import FileEngine.Storage.Versions

/-!
# Uploads are linearizable

Whatever the interleaving of their system calls or requests is, uploads take effect one after the
other: a successful upload at one moment between its first call and its last one, a failed upload
never. At every moment one finds under an address that is not temporary what the uploads up to
then have left there.
-/

namespace FileEngine

open Go

section

variable {M : Machine} {ι κ ε : Type} [DecidableEq κ]

/-- What an upload makes of the content at an address. -/
def overwrite (target : ι → κ) (r : ι → Reader) (i : ι) (k : κ) (old : Option Str) : Option Str :=
  if k = target i then some (r i (32 * 1024)).bytes else old

variable [DecidableEq ι]

/-- The uploads of the pool take effect in some order: each in a turn of its own, and only with a
reader that has come to its end; an upload that has returned is among them if it has returned
`nil`. -/
def TakeEffect (target : ι → κ) (r : ι → Reader) (isUpload : ι → Bool)
    (view : M.State → κ → Option Str) (Visible : κ → Prop) (p : Pool M ι (Except ε Unit))
    (sched : List (ι × M.Choice)) : Prop :=
  ∃ order, Linearized (overwrite target r) view Visible p sched order ∧
    (∀ i ∈ order.map Prod.fst, (r i (32 * 1024)).err = .eof) ∧
    ∀ i res, (p.run sched).progs i = .ret res →
      (i ∈ order.map Prod.fst ↔ isUpload i = true ∧ res = .ok ())

theorem takeEffect_of_commits {Γ : Type} {P : Protocol M ι Γ}
    {A : ι → M.State → M.Effect → Prop} {done : Γ → Prop}
    {Quiet Commits : ι → M.State → M.State → Prop} {p : Pool M ι (Except ε Unit)}
    {sched : List (ι × M.Choice)} {γ₀ : ι → Γ} {target : ι → κ} {r : ι → Reader}
    {isUpload : ι → Bool} {view : M.State → κ → Option Str} {Visible : κ → Prop}
    (hP : P.CommitPoint done Quiet Commits)
    (h₀ : P.Holds A (fun i res g => done g ↔ isUpload i = true ∧ res = .ok ()) γ₀ p)
    (hstart : ∀ i, ¬ done (γ₀ i)) (hA : p.Allowed A sched)
    (hquiet : ∀ i s s', Quiet i s s' → ∀ k, Visible k → view s' k = view s k)
    (htarget : ∀ i s s', Commits i s s' →
      ∃ content, Whole (r i) content ∧ view s' (target i) = some content)
    (hothers : ∀ i s s', Commits i s s' → ∀ k, k ≠ target i → Visible k → view s' k = view s k) :
    TakeEffect target r isUpload view Visible p sched := by
  obtain ⟨γ, order, hlin, hdone, hlegal, hholds⟩ := Protocol.run_linearizes hP h₀ hstart hA
    (overwrite target r) view Visible hquiet (fun i s s' hcommit k hk => by
      unfold overwrite
      split
      · rename_i hki
        obtain ⟨content, hwhole, hview⟩ := htarget i s s' hcommit
        rw [hki, hview, hwhole.2]
      · rename_i hki
        exact hothers i s s' hcommit k hki hk)
  refine ⟨order, hlin, fun i hi => ?_, fun i res hret => ?_⟩
  · obtain ⟨s, s', hcommit⟩ := hlegal i hi
    obtain ⟨content, hwhole, _⟩ := htarget i s s' hcommit
    exact hwhole.1
  · rw [hdone]
    exact hholds.ended hret

end

end FileEngine

/-! ## The local backend -/

namespace FileEngine.Local

open Go Os

/-- **Uploads to local storage are linearizable**, beside folder tasks, in every interleaving of
their system calls and with any failures. -/
theorem uploads_linearizable {ι : Type} [DecidableEq ι] (s : LocalStorage) (job : ι → Job)
    (hnames : ∀ i, ¬ TempName (locate (s.full (job i).path))) (t : FS)
    (sched : List (ι × Choice)) :
    TakeEffect (fun i => locate (s.full (job i).path)) (fun i => (job i).reader)
      (fun i => (job i).isUpload) fileAt (fun l => ¬ TempName l) (jobs s job t) sched := by
  refine takeEffect_of_commits (writing_commitPoint (temp_ne_target hnames))
    (jobs_writing hnames t) (fun _ h => by cases h) (jobs_allowed s job t sched) ?_ ?_ ?_
  · intro i t t' hquiet l hl
    rcases hquiet l hl with hsame | ⟨hnone, hdir⟩
    · exact fileAt_congr hsame
    · simp only [fileAt, hnone, hdir]
  · rintro i t t' ⟨⟨content, hwhole, hlook⟩, _⟩
    exact ⟨content, hwhole, fileAt_file hlook⟩
  · rintro i t t' ⟨_, hothers⟩ l htarget hl
    exact fileAt_congr (hothers l htarget hl)

/-- The upload that overtakes the other one takes effect, and the other one fails. -/
theorem uploads_linearizable_overtaking :
    let job (b : Bool) := Job.upload (str "/a") (twoReaders b)
    TakeEffect (fun b => locate (LocalStorage.full ⟨str "/srv"⟩ (job b).path))
        (fun b => (job b).reader) (fun b => (job b).isUpload) fileAt (fun l => ¬ TempName l)
        (jobs ⟨str "/srv"⟩ job FS.empty) overtaking ∧
      fileAt ((jobs ⟨str "/srv"⟩ job FS.empty).run overtaking).state (locate (str "/srv/a")) =
        some (str "yz") := by
  intro job
  refine ⟨uploads_linearizable ⟨str "/srv"⟩ job (fun _ => not_tempName_a) FS.empty overtaking, ?_⟩
  decide +kernel

end FileEngine.Local

/-! ## The object backends -/

namespace FileEngine.ObjectStore

open Go

def objectAt (b : Bucket) (k : Str) : Option Str := b.lookup k

theorem takeEffect_of_follows {ι : Type} [DecidableEq ι] {target : ι → Str} {r : ι → Reader}
    {p : Pool cloud ι (Except Str Unit)} {sched : List (ι × Choice)}
    (hfresh : FreshKeys target p sched)
    (h : ∀ i, (writing (TempOf p sched) target r hfresh.names).Follows
      (FreshTemp (TempOf p sched i)) i Tells (p.progs i) ⟨none, false⟩ p.state) :
    TakeEffect target r (fun _ => true) objectAt
      (fun k => ∀ i, ¬ TempOf p sched i k) p sched := by
  have hstart : (writing (TempOf p sched) target r hfresh.names).Holds
      (fun i => FreshTemp (TempOf p sched i))
      (fun _ res g => g.installed = true ↔ true = true ∧ res = .ok ())
      (fun _ => ⟨none, false⟩) p := by
    refine ⟨?_, fun i => Protocol.follows_mono (fun res g b hres => ?_) (h i)⟩
    · constructor <;> simp
    · unfold Tells at hres
      rw [← hres]
      simp
  have hallowed : p.Allowed (fun i => FreshTemp (TempOf p sched i)) sched := by
    intro i b' e he
    exact ⟨fun k hk => ⟨b', hk ▸ he⟩, hfresh.new i b' e he⟩
  refine takeEffect_of_commits (writing_commitPoint hfresh.names) hstart
    (fun _ h => by cases h) hallowed ?_ ?_ ?_
  · exact fun i b b' hquiet k hk => hquiet k (hk i)
  · rintro i b b' ⟨⟨content, hwhole, hlook⟩, _⟩
    exact ⟨content, hwhole, hlook⟩
  · rintro i b b' ⟨_, hothers⟩ k htarget _
    exact hothers k htarget

end FileEngine.ObjectStore
