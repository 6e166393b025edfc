import FileEngine.Storage.ObjectBackends

/-!
# Moving objects

An object store has no move: `Move` copies the object and deletes the source. That is
right as long as the two keys differ. With one key for both, S3 refuses the copy and
`Move` returns the error; GCS copies the object onto itself, and the deletion then takes
the only copy away, while `Move` returns `nil`. Two paths have the same key if they only
differ in a leading separator.
-/

namespace FileEngine.ObjectStore

open Go

/-- What a caller of `Move` can rely on, given the bucket before, the result, and the bucket
after. -/
structure MovesObject (srcKey dstKey : Str) (b : Bucket) (value : Except Str Unit)
    (b' : Bucket) : Prop where
  moved : value = .ok () → ∃ body, b.lookup srcKey = some body ∧ b'.lookup dstKey = some body
  others : value = .ok () → ∀ k, k ≠ srcKey → k ≠ dstKey → b'.lookup k = b.lookup k
  kept : ∀ e, value = .error e → ∀ body, b.lookup srcKey = some body →
    b'.lookup srcKey = some body ∨ b'.lookup dstKey = some body

/-- Every run of the program from this bucket moves the object. -/
def AlwaysMoves (srcKey dstKey : Str) (b : Bucket) (prog : CloudM Unit) : Prop :=
  ∀ choices, MovesObject srcKey dstKey b (Prog.run prog choices b).value
    (Prog.run prog choices b).state

/-- Copy and delete, as both backends do it. -/
def copyThenDelete (srcKey dstKey : Str) (ontoItself missingOk : Bool) : CloudM Unit := do
  copy srcKey dstKey ontoItself
  delete srcKey missingOk

section

variable {srcKey dstKey : Str} {ontoItself missingOk : Bool} {b : Bucket}

theorem movesObject_nothing (e : Str) : MovesObject srcKey dstKey b (.error e) b :=
  ⟨nofun, nofun, fun _ _ _ hbody => Or.inl hbody⟩

theorem movesObject_copied {body : Str} (hbody : b.lookup srcKey = some body) (e : Str) :
    MovesObject srcKey dstKey b (.error e) (b.insert dstKey body) := by
  refine ⟨nofun, nofun, fun _ _ body' hbody' => Or.inr ?_⟩
  rw [Finmap.lookup_insert]
  exact hbody.symm.trans hbody'

theorem movesObject_deleted {body : Str} (hbody : b.lookup srcKey = some body)
    (hne : srcKey ≠ dstKey) :
    MovesObject srcKey dstKey b (.ok ()) ((b.insert dstKey body).erase srcKey) := by
  refine ⟨fun _ => ⟨body, hbody, ?_⟩, fun _ k hsrc hdst => ?_, nofun⟩
  · rw [Finmap.lookup_erase_ne hne.symm, Finmap.lookup_insert]
  · rw [Finmap.lookup_erase_ne hsrc, Finmap.lookup_insert_of_ne _ hdst]

theorem copyThenDelete_moves
    (h : srcKey ≠ dstKey ∨ ontoItself = false ∨ b.lookup srcKey = none) :
    AlwaysMoves srcKey dstKey b (copyThenDelete srcKey dstKey ontoItself missingOk) := by
  intro choices
  have hwp : Prog.Wp (fun _ => True) (MovesObject srcKey dstKey b)
      (copyThenDelete srcKey dstKey ontoItself missingOk).run b := by
    refine Prog.wp_bindE (Prog.wp_call fun choice r b₁ effects hexec =>
      ⟨fun _ _ => trivial, ?_⟩)
    change b.copy choice srcKey dstKey ontoItself = _ at hexec
    rcases b.copy_cases choice srcKey dstKey ontoItself with
      ⟨e, heq⟩ | ⟨body, hbody, hself, heq⟩
    · cases heq.symm.trans hexec
      exact movesObject_nothing e
    · cases heq.symm.trans hexec
      have hne : srcKey ≠ dstKey := by
        rcases h with hne | hno | hnone
        · exact hne
        · exact fun hsame => by simp [hself hsame] at hno
        · simp [hbody] at hnone
      refine Prog.wp_call fun choice' r' b₂ effects' hexec' => ⟨fun _ _ => trivial, ?_⟩
      change Bucket.delete (b.insert dstKey body) choice' srcKey missingOk = _ at hexec'
      rcases Bucket.delete_cases (b.insert dstKey body) choice' srcKey missingOk with
        ⟨e, heq'⟩ | heq'
      · cases heq'.symm.trans hexec'
        exact movesObject_copied hbody e
      · cases heq'.symm.trans hexec'
        exact movesObject_deleted hbody hne
  exact (Prog.run_of_wp hwp choices).2

/-- Copied onto itself and deleted: the object is lost, without an error. -/
theorem copyThenDelete_onto_itself {key body : Str} (hbody : b.lookup key = some body) :
    ¬ AlwaysMoves key key b (copyThenDelete key key true missingOk) := by
  intro h
  have hcopy : b.copy (.smooth []) key key true =
      (.ok (), b.insert key body, [.copied key key]) := by
    simp [Bucket.copy, Choice.smooth, hbody]
  have hdelete : Bucket.delete (b.insert key body) (.smooth []) key missingOk =
      (.ok (), (b.insert key body).erase key, [.deleted key]) := by
    simp [Bucket.delete, Choice.smooth]
  have hcan : Prog.Can (fun value (b' : Bucket) => value = .ok () ∧ b'.lookup key = none)
      (copyThenDelete key key true missingOk).run b := by
    refine Prog.can_bindE (Prog.can_call (M := cloud) (c := .copy key key true)
      (.smooth []) hcopy ?_)
    exact Prog.can_call (M := cloud) (c := .delete key missingOk) (.smooth []) hdelete
      ⟨rfl, Finmap.lookup_erase key _⟩
  obtain ⟨choices, hok, hlost⟩ := Prog.run_of_can hcan
  obtain ⟨_, _, hthere⟩ := (h choices).moved hok
  cases hlost.symm.trans hthere

end

/-! ## The two backends -/

theorem copyObject_eq {decode : Str → Str} {s : S3Storage} {key : Str}
    (hnamed : decode (s.copySource key) = s.bucket ++ [slash] ++ key) (dst : Str) :
    s.copyObject decode dst (s.copySource key) = copy key dst false := by
  have hpre : hasPrefix (s.bucket ++ [slash] ++ key) (s.bucket ++ [slash]) = true :=
    hasPrefix_iff.mpr (List.prefix_append _ _)
  simp only [S3Storage.copyObject, hnamed, hpre, if_true, List.drop_left]

theorem s3_move_eq {decode : Str → Str} {s : S3Storage} {src : Str}
    (hnamed : decode (s.copySource (s.key src)) = s.bucket ++ [slash] ++ s.key src) (dst : Str) :
    s.move decode src dst = copyThenDelete (s.key src) (s.key dst) false true := by
  rw [S3Storage.move]
  simp only [copyObject_eq hnamed]
  rfl

theorem gcs_move_eq (g : GCSStorage) (src dst : Str) :
    g.move src dst = copyThenDelete (g.key src) (g.key dst) true false := rfl

theorem keyIn_inj {ns p q : Str} :
    keyIn ns p = keyIn ns q ↔ trimPrefix p [slash] = trimPrefix q [slash] := by
  rw [keyIn_eq, keyIn_eq, List.append_cancel_left_eq]
  rfl

/-- **Moving objects.** On S3, if the provider reads `CopySource` as it was meant, every
`Move` moves the object. On GCS it does so exactly if the paths differ in more than a
leading separator, or there is no object to move. -/
theorem move_preserves_iff (decode : Str → Str) (s : S3Storage) (g : GCSStorage) (b : Bucket)
    (src dst : Str) :
    (decode (s.copySource (s.key src)) = s.bucket ++ [slash] ++ s.key src →
      AlwaysMoves (s.key src) (s.key dst) b (s.move decode src dst)) ∧
    (AlwaysMoves (g.key src) (g.key dst) b (g.move src dst) ↔
      trimPrefix src [slash] ≠ trimPrefix dst [slash] ∨ b.lookup (g.key src) = none) := by
  constructor
  · intro hnamed
    rw [s3_move_eq hnamed]
    exact copyThenDelete_moves (Or.inr (Or.inl rfl))
  · rw [gcs_move_eq]
    constructor
    · intro h
      by_contra hcon
      obtain ⟨hsame, hthere⟩ := not_or.mp hcon
      have hkey : g.key src = g.key dst := keyIn_inj.mpr (not_not.mp hsame)
      obtain ⟨body, hbody⟩ := Option.ne_none_iff_exists'.mp hthere
      rw [← hkey] at h
      exact copyThenDelete_onto_itself hbody h
    · rintro (hne | hnone)
      · exact copyThenDelete_moves (Or.inl fun hkey => hne (keyIn_inj.mp hkey))
      · exact copyThenDelete_moves (Or.inr (Or.inr hnone))

/-- `Move("/a", "a")` on GCS returns `nil` and loses the object. -/
theorem gcs_move_loses :
    let b : Bucket := (∅ : Bucket).insert (str "a") (str "x")
    let ran := Prog.run (GCSStorage.move ⟨str "bucket", []⟩ (str "/a") (str "a"))
      (fun _ => .smooth []) b
    ran.value = .ok () ∧ b.lookup (str "a") = some (str "x") ∧
      ran.state.lookup (str "a") = none := by
  refine ⟨rfl, by decide, by decide⟩

theorem move_preserves_ab :
    let b : Bucket := (∅ : Bucket).insert (str "a") (str "x")
    AlwaysMoves (str "a") (str "b") b
      (S3Storage.move (fun header => header) ⟨str "bucket", []⟩ (str "/a") (str "/b")) := by
  intro b
  exact (move_preserves_iff (fun header => header) ⟨str "bucket", []⟩ ⟨str "bucket", []⟩ b
    (str "/a") (str "/b")).1 (by decide)

end FileEngine.ObjectStore
