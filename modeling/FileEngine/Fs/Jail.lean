import FileEngine.Filesystem.LocalFs
import FileEngine.Fs.LocalFs
import FileEngine.Go.Relative

/-!
# The path jails

`sanitizeAndJoin` of the worker's file system and of the file system of uploads: the parts
are joined beneath the base, and the result is refused if `Rel` leads to it with two dots at
the front.

* `sanitizeAndJoin_confines`: what is accepted is at the base or beneath it, and so are the
  things that `CreateFolder` and `MoveUploadedFile` touch. Only the missing directories
  above the base are made as well.
* `sanitizeAndJoin_eq_full_iff`: an accepted path is resolved as by the local backend exactly
  if it does not climb. The backend reads every path from its base, and this jail lets a
  relative path leave the base and come back.
* `sanitizeAndJoin_accepts_iff`: of the paths that stay at the base or beneath it, those are
  refused whose first name begins with two dots.
-/

namespace FileEngine.Fs

open Go Os

namespace LocalFs

variable {l : LocalFs} {parts : List Str}

/-- Where the parts lead. -/
def dest (l : LocalFs) (parts : List Str) : Loc := (locate l.baseRoot).reroot (join parts)

theorem full_eq (habs : isAbs l.baseRoot = true) (parts : List Str) :
    l.full parts = (l.dest parts).path :=
  join_stripped habs (join parts)

theorem locate_full (habs : isAbs l.baseRoot = true) (parts : List Str) :
    locate (l.full parts) = l.dest parts := by
  rw [full_eq habs, locate_path]

/-- All that `sanitizeAndJoin` can return. -/
theorem sanitizeAndJoin_iff (habs : isAbs l.baseRoot = true) {p : Str} :
    l.sanitizeAndJoin parts = .ok p ↔
      p = (l.dest parts).path ∧ Admits (locate l.baseRoot) (l.dest parts) := by
  obtain ⟨r, hrel, hadmits⟩ := rel_admits habs (l.dest parts)
  have hdots : str ".." = dotdot := rfl
  unfold sanitizeAndJoin
  simp only [full_eq habs, hrel, hdots]
  rw [← hadmits]
  cases hpre : hasPrefix r dotdot with
  | true => simp
  | false => simp [eq_comm]

theorem prefix_of_sanitizeAndJoin (habs : isAbs l.baseRoot = true) {p : Str}
    (h : l.sanitizeAndJoin parts = .ok p) : locate l.baseRoot <+: locate p := by
  obtain ⟨rfl, hadmits⟩ := (sanitizeAndJoin_iff habs).mp h
  rw [locate_path]
  exact hadmits.1

/-! ## What the operations touch -/

/-- The programs go on with an accepted path, or end. -/
theorem wp_resolveParts {α : Type} (habs : isAbs l.baseRoot = true) {f : Str → OsM α}
    {G : Effect → Prop} {Q : Except Errno α → FS → Prop} {t : FS} (herr : ∀ e, Q (.error e) t)
    (hok : ∀ p, l.sanitizeAndJoin parts = .ok p → locate l.baseRoot <+: locate p →
      Prog.Wp G Q (f p).run t) : Prog.Wp G Q (l.resolveParts parts >>= f).run t := by
  apply Prog.wp_bindE
  unfold resolveParts
  cases h : l.sanitizeAndJoin parts with
  | error e => exact herr _
  | ok p => exact hok p h (prefix_of_sanitizeAndJoin habs h)

theorem createFolder_within (habs : isAbs l.baseRoot = true) (parts : List Str) (t : FS) :
    Prog.Wp (Effect.Within (locate l.baseRoot)) Local.Anyhow (l.createFolder parts).run t := by
  refine wp_resolveParts habs (fun _ => trivial) fun p _ hp => ?_
  exact wp_mkdirAll (Or.inl hp) fun _ _ => trivial

theorem moveUploadedFile_within (habs : isAbs l.baseRoot = true) (src dst : List Str) (t : FS) :
    Prog.Wp (Effect.Within (locate l.baseRoot)) Local.Anyhow (l.moveUploadedFile src dst).run t := by
  refine wp_resolveParts habs (fun _ => trivial) fun srcF _ hsrc => ?_
  refine wp_resolveParts habs (fun _ => trivial) fun dstF hok hdst => ?_
  have hdir : locate l.baseRoot <+: locate (dir dstF) ∨ locate (dir dstF) <+: locate l.baseRoot := by
    obtain ⟨rfl, -⟩ := (sanitizeAndJoin_iff habs).mp hok
    rw [locate_path] at hdst
    rw [dir_path, locate_path]
    exact List.prefix_or_prefix_of_prefix hdst ( List.dropLast_prefix _)
  refine Prog.wp_bindE (wp_mkdirAll hdir fun made t₁ => ?_)
  cases made with
  | error e => exact trivial
  | ok _ =>
    refine Prog.wp_bindE (Prog.wp_attempt (wp_rename hsrc hdst fun renamed t₂ => ?_))
    cases renamed with
    | ok _ => exact trivial
    | error e =>
      refine Prog.wp_bindE (wp_openFile fun opened => ?_)
      cases opened with
      | error e => exact trivial
      | ok input =>
        refine Prog.wp_bindE (wp_create hdst (fun _ => trivial) fun out t₃ ho => ?_)
        refine Prog.wp_bindE (Prog.wp_attempt (wp_copyFile ho fun copied t₄ => ?_))
        cases copied with
        | error e => exact Prog.wp_bindE (wp_closeFile (Prog.wp_bindE (wp_closeFile trivial)))
        | ok _ =>
          refine Prog.wp_bindE (Prog.wp_attempt (wp_remove hsrc fun removed t₅ => ?_))
          refine Prog.wp_bindE (wp_closeFile (Prog.wp_bindE (wp_closeFile ?_)))
          cases removed <;> exact trivial

end LocalFs

/-- **The jail is sound.** For every absolute clean base, whatever the parts are: the
components of an accepted path are those of the base and others without `..`, and whatever
happens, everything that `CreateFolder` and `MoveUploadedFile` make, write, rename or remove
is at the base or beneath it, apart from missing directories above the base. -/
theorem sanitizeAndJoin_confines (l : LocalFs) (habs : isAbs l.baseRoot = true)
    (hclean : clean l.baseRoot = l.baseRoot) :
    (∀ parts p, l.sanitizeAndJoin parts = .ok p →
      isAbs p = true ∧ ∃ rest, pathComps p = pathComps l.baseRoot ++ rest ∧ dotdot ∉ rest) ∧
    (∀ parts choices t, ∀ e ∈ (Prog.run (l.createFolder parts).run choices t).effects,
      e.Within (locate l.baseRoot)) ∧
    ∀ src dst choices t, ∀ e ∈ (Prog.run (l.moveUploadedFile src dst).run choices t).effects,
      e.Within (locate l.baseRoot) := by
  refine ⟨fun parts p hok => ?_, fun parts choices t => ?_, fun src dst choices t => ?_⟩
  · obtain ⟨rfl, ⟨k, hk⟩, -⟩ := (LocalFs.sanitizeAndJoin_iff habs).mp hok
    have hbase : pathComps l.baseRoot = (locate l.baseRoot).map Name.val := by
      rw [← pathComps_path, ← clean_rooted habs, hclean]
    refine ⟨isAbs_path _, k.map Name.val, ?_, dotdot_not_mem_names k⟩
    rw [pathComps_path, ← hk, List.map_append, hbase]
  · exact (Prog.run_of_wp (LocalFs.createFolder_within habs parts t) choices).1
  · exact (Prog.run_of_wp (LocalFs.moveUploadedFile_within habs src dst t) choices).1

theorem sanitizeAndJoin_confines_srv :
    (LocalFs.mk (str "/srv")).sanitizeAndJoin [str "a/../b", str "./c"] = .ok (str "/srv/b/c") ∧
      ∃ rest, pathComps (str "/srv/b/c") = pathComps (str "/srv") ++ rest ∧ dotdot ∉ rest := by
  have hok : (LocalFs.mk (str "/srv")).sanitizeAndJoin [str "a/../b", str "./c"] =
      .ok (str "/srv/b/c") := by decide
  refine ⟨hok, ?_⟩
  exact ((sanitizeAndJoin_confines ⟨str "/srv"⟩ (by decide) (by decide)).1 _ _ hok).2

/-- The base `/srv/data` is not there, so `/srv` is made as well. -/
theorem createFolder_makes_ancestor :
    let l : LocalFs := ⟨str "/srv/data"⟩
    let ran := Prog.run (l.createFolder [str "x"]).run (fun _ => Choice.smooth []) FS.empty
    ran.value = .ok () ∧ .created (locate (str "/srv")) true ∈ ran.effects ∧
      ¬ locate l.baseRoot <+: locate (str "/srv") := by
  decide

/-! ## Two resolvers -/

/-- **Where the two resolvers agree.** An accepted path is the one that the local backend
uses exactly if the base is the root, or the cleaned path does not begin with `..`. -/
theorem sanitizeAndJoin_eq_full_iff (base p q : Str) (habs : isAbs base = true)
    (hclean : clean base = base) (hok : LocalFs.sanitizeAndJoin ⟨base⟩ [p] = .ok q) :
    q = Local.LocalStorage.full ⟨base⟩ p ↔
      base = [slash] ∨ (pathComps (clean p)).head? ≠ some dotdot := by
  have hroot : base = [slash] ↔ locate base = [] := by
    rw [← hclean, clean_rooted habs, locate_path, ← path_nil, path_injective.eq_iff]
  have hdest : LocalFs.dest ⟨base⟩ [p] = (locate base).reroot p := reroot_join _ p
  obtain ⟨rfl, -⟩ := (LocalFs.sanitizeAndJoin_iff (l := ⟨base⟩) habs).mp hok
  rw [Local.full_eq (s := ⟨base⟩) habs, path_injective.eq_iff, hdest, Loc.reroot, hroot,
    head_pathComps_clean]
  by_cases hp : isAbs p = true
  · rw [if_pos hp]
    exact iff_of_true rfl (Or.inr (Or.inl hp))
  · rw [if_neg hp, follow_eq_self_iff]
    constructor
    · rintro (h | h)
      · exact Or.inr (Or.inr h)
      · exact Or.inl h
    · rintro (h | h | h)
      · exact Or.inr h
      · exact absurd h hp
      · exact Or.inl h

theorem sanitizeAndJoin_eq_full_plain :
    LocalFs.sanitizeAndJoin ⟨str "/srv"⟩ [str "a/../b"] = .ok (str "/srv/b") ∧
      (str "/srv/b" = Local.LocalStorage.full ⟨str "/srv"⟩ (str "a/../b") ↔
        str "/srv" = [slash] ∨ (pathComps (clean (str "a/../b"))).head? ≠ some dotdot) := by
  have hok : LocalFs.sanitizeAndJoin ⟨str "/srv"⟩ [str "a/../b"] = .ok (str "/srv/b") := by decide
  exact ⟨hok, sanitizeAndJoin_eq_full_iff _ _ _ (by decide) (by decide) hok⟩

/-- A path that leaves the base and comes back in by its name. -/
theorem sanitizeAndJoin_ne_full :
    LocalFs.sanitizeAndJoin ⟨str "/srv"⟩ [str "../srv/x"] = .ok (str "/srv/x") ∧
      Local.LocalStorage.full ⟨str "/srv"⟩ (str "../srv/x") = str "/srv/srv/x" := by
  decide

/-! ## What the jails refuse -/

/-- Where the parts lead, for the file system of uploads. -/
theorem full_eq_dest {l : Filesystem.LocalFs} (habs : isAbs l.baseRoot = true) (parts : List Str) :
    l.full parts = (LocalFs.dest ⟨l.baseRoot⟩ parts).path :=
  LocalFs.full_eq (l := ⟨l.baseRoot⟩) habs parts

/-- In a tree without links the file system of uploads checks the joined path, whatever the
calls return. -/
theorem run_sanitizeAndJoin {l : Filesystem.LocalFs} (habs : isAbs l.baseRoot = true)
    (parts : List Str) (choices : Nat → Choice) (t : FS) :
    (Prog.run (l.sanitizeAndJoin parts).run choices t).value = l.checkBase (l.full parts) := by
  have hfull : clean (l.full parts) = l.full parts := by
    rw [full_eq_dest habs, clean_path]
  have hwp : Prog.Wp Local.AnyEffect (fun r _ => r = l.checkBase (l.full parts))
      (l.sanitizeAndJoin parts).run t := by
    refine Prog.wp_bindE (Prog.wp_attempt (Prog.wp_bind (Prog.wp_bindE ?_)))
    refine Prog.wp_mono (fun r t' _ => ?_) (Prog.wp_trivial (openFile (l.full parts)).run t)
    cases r with
    | error e => rfl
    | ok h => exact congrArg l.checkBase hfull
  exact (Prog.run_of_wp hwp choices).2

theorem checkBase_iff {l : Filesystem.LocalFs} (habs : isAbs l.baseRoot = true) {q : Loc}
    {p : Str} :
    l.checkBase q.path = .ok p ↔ p = q.path ∧ Admits (locate l.baseRoot) q := by
  obtain ⟨r, hrel, hadmits⟩ := rel_admits habs q
  have hdots : str ".." = dotdot := rfl
  unfold Filesystem.LocalFs.checkBase
  rw [hrel, ← hadmits, hdots]
  cases hpre : hasPrefix r dotdot with
  | true => simp [hpre]
  | false => simp [hpre, eq_comm]

/-- **What the jails accept.** Parts that lead to the base or beneath it are accepted, by the
worker's file system and by that of uploads in a tree without links, exactly if the first
name beneath the base does not begin with two dots. -/
theorem sanitizeAndJoin_accepts_iff (base : Str) (habs : isAbs base = true)
    (hclean : clean base = base) (parts : List Str)
    (hin : AtOrBeneath base (LocalFs.full ⟨base⟩ parts)) :
    (LocalFs.sanitizeAndJoin ⟨base⟩ parts = .ok (LocalFs.full ⟨base⟩ parts) ↔
      PlainBeneath (locate base) ((locate base).reroot (join parts))) ∧
    ∀ choices t, (Prog.run (Filesystem.LocalFs.sanitizeAndJoin ⟨base⟩ parts).run choices t).value =
        .ok (LocalFs.full ⟨base⟩ parts) ↔
      PlainBeneath (locate base) ((locate base).reroot (join parts)) := by
  have hpre : locate base <+: LocalFs.dest ⟨base⟩ parts := by
    have hbase : base = (locate base).path := by rw [← clean_rooted habs, hclean]
    rw [LocalFs.full_eq (l := ⟨base⟩) habs, hbase, atOrBeneath_path, ← hbase] at hin
    exact hin
  have hadmits : Admits (locate base) (LocalFs.dest ⟨base⟩ parts) ↔
      PlainBeneath (locate base) (LocalFs.dest ⟨base⟩ parts) := and_iff_right hpre
  refine ⟨?_, fun choices t => ?_⟩
  · rw [LocalFs.sanitizeAndJoin_iff (l := ⟨base⟩) habs, LocalFs.full_eq (l := ⟨base⟩) habs,
      and_iff_right rfl]
    exact hadmits
  · have hfull := full_eq_dest (l := ⟨base⟩) habs parts
    have hpath := LocalFs.full_eq (l := ⟨base⟩) habs parts
    rw [run_sanitizeAndJoin (l := ⟨base⟩) habs parts choices t, hfull, hpath,
      checkBase_iff (l := ⟨base⟩) habs, and_iff_right rfl]
    exact hadmits

theorem sanitizeAndJoin_accepts_plain :
    AtOrBeneath (str "/srv") (LocalFs.full ⟨str "/srv"⟩ [str "a/..b"]) ∧
      (LocalFs.sanitizeAndJoin ⟨str "/srv"⟩ [str "a/..b"] = .ok (str "/srv/a/..b") ↔
        PlainBeneath (locate (str "/srv")) ((locate (str "/srv")).reroot (join [str "a/..b"]))) := by
  have hin : AtOrBeneath (str "/srv") (LocalFs.full ⟨str "/srv"⟩ [str "a/..b"]) := by
    unfold AtOrBeneath
    decide
  exact ⟨hin, (sanitizeAndJoin_accepts_iff _ (by decide) (by decide) _ hin).1⟩

/-- A name with two dots at its front is taken for an escape. -/
theorem sanitizeAndJoin_refuses_name :
    AtOrBeneath (str "/srv") (LocalFs.full ⟨str "/srv"⟩ [str "..foo"]) ∧
      LocalFs.sanitizeAndJoin ⟨str "/srv"⟩ [str "..foo"] = .error (str "outside base") := by
  unfold AtOrBeneath
  decide

end FileEngine.Fs
