import FileEngine.Auth.Resolver
import FileEngine.Go.Relative
import Mathlib.Data.List.Infix

/-!
# The ancestor walk

The walk of `parentPaths` on rooted and on other paths.

* `parentPaths_rooted`: on a rooted path the walk ends. It lists the path itself, as it
  was given, and then the directory part of the path and all its ancestors in canonical
  spelling (`chain`).
* `parentPathsLoop_relative`: on any other path the walk never ends, because the
  directory of a relative path is relative again and `/` is never reached.
* `parentPaths_eq_some_iff`: the bound on the rounds in `parentPaths` loses no result.
* `mem_chain_iff`: which canonical paths the walk visits, for a rooted path without
  repeated separators. It is all of the ancestors of one location, `reach`.
-/

namespace FileEngine.Auth

open Go

/-- A location and its ancestors, the nearest first. -/
def ancestors (l : Loc) : List Loc := l.inits.reverse

@[simp] theorem ancestors_nil : ancestors [] = [[]] := rfl

theorem ancestors_concat (l : Loc) (n : Name) :
    ancestors (l ++ [n]) = (l ++ [n]) :: ancestors l := by
  simp [ancestors, List.inits_append]

theorem mem_ancestors {k l : Loc} : k ∈ ancestors l ↔ k <+: l := by
  simp [ancestors]

theorem head?_ancestors (l : Loc) : (ancestors l).head? = some l := by
  rcases List.eq_nil_or_concat' l with rfl | ⟨l, n, rfl⟩
  · rfl
  · rw [ancestors_concat]
    rfl

theorem getLast?_ancestors (l : Loc) : (ancestors l).getLast? = some [] := by
  rw [ancestors, List.getLast?_reverse]
  cases l <;> rfl

/-- Every further element is an ancestor of all the elements before it. -/
theorem pairwise_ancestors (l : Loc) : (ancestors l).Pairwise fun k m => m <+: k ∧ m ≠ k := by
  induction l using List.reverseRecOn with
  | nil => exact List.pairwise_singleton _ _
  | append_singleton l n ih =>
    rw [ancestors_concat]
    refine List.Pairwise.cons (fun m hm => ?_) ih
    have hpre := mem_ancestors.mp hm
    refine ⟨hpre.trans (List.prefix_append _ _), ?_⟩
    rintro rfl
    have hlen := hpre.length_le
    rw [List.length_append, List.length_singleton] at hlen
    omega

/-! ## The walk on canonical paths -/

theorem parentPathsRound_root (paths : List Str) :
    parentPathsRound ([slash], paths) = .inr (paths ++ [[slash]]) := by
  simp [parentPathsRound]

theorem parentPathsRound_step {path : Str} (h : path ≠ [slash]) (paths : List Str) :
    parentPathsRound (path, paths) = .inl (dir path, paths ++ [path]) := by
  simp [parentPathsRound, h]

/-- From a canonical path the walk collects the ancestors, one in each round. -/
theorem loop_path (l : Loc) (paths : List Str) {rounds : Nat} (hr : l.length < rounds) :
    loop parentPathsRound rounds (l.path, paths) =
      some (paths ++ (ancestors l).map Loc.path) := by
  induction l using List.reverseRecOn generalizing paths rounds with
  | nil =>
    obtain ⟨n, rfl⟩ := Nat.exists_eq_succ_of_ne_zero (by omega : rounds ≠ 0)
    exact loop_break (parentPathsRound_root paths) n
  | append_singleton l n ih =>
    obtain ⟨m, rfl⟩ := Nat.exists_eq_succ_of_ne_zero (by omega : rounds ≠ 0)
    rw [List.length_append, List.length_singleton] at hr
    rw [loop_continue (parentPathsRound_step (path_ne_slash (by simp)) paths), dir_path,
      List.dropLast_concat, ih _ (by omega), ancestors_concat]
    simp

/-! ## The walk on all paths -/

/-- What the walk lists for a rooted path. -/
def chain (p : Str) : List Str :=
  if p = [slash] then [[slash]]
  else p :: (ancestors (resolve (comps p).dropLast)).map Loc.path

theorem length_resolve_le (cs : List Str) : (resolve cs).length ≤ weight cs := by
  have h := (length_le_weight ((resolve cs).map Name.val)).trans (weight_resolve_le cs)
  rwa [List.length_map] at h

theorem weight_dropLast_comps (s : Str) : weight (comps s).dropLast ≤ s.length := by
  have h := weight_comps s
  obtain ⟨cs, c, hcs⟩ := exists_comps_concat s
  rw [hcs, weight_append, weight_cons, weight_nil] at h
  rw [hcs, List.dropLast_concat]
  omega

theorem parentPathsLoop_rooted {p : Str} (h : isAbs p = true) {rounds : Nat}
    (hr : p.length + 2 ≤ rounds) : parentPathsLoop rounds p = some (chain p) := by
  obtain ⟨n, rfl⟩ := Nat.exists_eq_succ_of_ne_zero (by omega : rounds ≠ 0)
  unfold parentPathsLoop chain
  by_cases hp : p = [slash]
  · rw [if_pos hp, hp]
    exact loop_break (parentPathsRound_root []) n
  · have hlen := (length_resolve_le (comps p).dropLast).trans (weight_dropLast_comps p)
    rw [if_neg hp, loop_continue (parentPathsRound_step hp []), dir_rooted h,
      loop_path _ _ (by omega)]
    rfl

theorem parentPaths_rooted {p : Str} (h : isAbs p = true) : parentPaths p = some (chain p) :=
  parentPathsLoop_rooted h le_rfl

theorem parentPaths_path (l : Loc) :
    parentPaths l.path = some ((ancestors l).map Loc.path) := by
  have hlen : l.length < l.path.length + 2 := by
    have h := length_resolve_le (comps l.path)
    rw [← locate, locate_path, weight_comps] at h
    omega
  exact (loop_path l [] hlen).trans (by simp)

theorem self_mem_chain (p : Str) : p ∈ chain p := by
  unfold chain
  split <;> simp_all

/-- The path as it was given is not one of its ancestors. -/
theorem not_mem_ancestors {p : Str} (h : isAbs p = true) (hp : p ≠ [slash]) :
    p ∉ (ancestors (locate (dir p))).map Loc.path := by
  intro hmem
  obtain ⟨k, hk, rfl⟩ := List.mem_map.mp hmem
  rw [dir_path, locate_path] at hk
  refine not_prefix_dropLast (fun hroot => hp ?_) (mem_ancestors.mp hk)
  rw [hroot, path_nil]

/-- **The ancestor chain of a rooted path.** The walk ends; it lists the path itself first and `/`
last, and nothing twice. What comes after a path other than `/` is the canonical path of its
directory and of all the ancestors of that, each before its own ancestors. -/
theorem parentPaths_lists_ancestors (p : Str) (h : isAbs p = true) :
    ∃ ps, (∀ rounds, p.length + 2 ≤ rounds → parentPathsLoop rounds p = some ps) ∧
      parentPaths p = some ps ∧ ps.head? = some p ∧ ps.getLast? = some [slash] ∧ ps.Nodup ∧
      (p ≠ [slash] → ps.tail.head? = some (dir p) ∧
        (∀ q, q ∈ ps.tail ↔ Canonical q ∧ AtOrBeneath q (dir p)) ∧
        ps.tail.Pairwise fun q r => AtOrBeneath r q ∧ r ≠ q) := by
  refine ⟨chain p, fun rounds hr => parentPathsLoop_rooted h hr, parentPaths_rooted h, ?_⟩
  by_cases hp : p = [slash]
  · rw [chain, if_pos hp, hp]
    simp
  · have hdir : dir p = (locate (dir p)).path := by rw [dir_rooted h, locate_path]
    have hchain : chain p = p :: (ancestors (locate (dir p))).map Loc.path := by
      rw [chain, if_neg hp, dir_rooted h, locate_path]
    have hlast : ((ancestors (locate (dir p))).map Loc.path).getLast? = some [slash] := by
      rw [List.getLast?_map, getLast?_ancestors]
      rfl
    have hpairs : ((ancestors (locate (dir p))).map Loc.path).Pairwise
        fun q r => AtOrBeneath r q ∧ r ≠ q := by
      refine List.pairwise_map.mpr ((pairwise_ancestors _).imp fun hkm => ?_)
      rw [atOrBeneath_path, ne_eq, path_injective.eq_iff]
      exact hkm
    rw [hchain]
    refine ⟨rfl, ?_, ?_, fun _ => ⟨?_, fun q => ?_, hpairs⟩⟩
    · rw [List.getLast?_cons, hlast]
      rfl
    · exact List.nodup_cons.mpr ⟨not_mem_ancestors h hp, hpairs.imp fun hqr => hqr.2.symm⟩
    · rw [List.tail_cons, List.head?_map, head?_ancestors, Option.map_some, ← hdir]
    · rw [List.tail_cons, List.mem_map, hdir]
      constructor
      · rintro ⟨k, hk, rfl⟩
        exact ⟨⟨k, rfl⟩, (atOrBeneath_path _ _).mpr (hdir ▸ mem_ancestors.mp hk)⟩
      · rintro ⟨⟨k, rfl⟩, hbeneath⟩
        exact ⟨k, mem_ancestors.mpr (hdir ▸ (atOrBeneath_path _ _).mp hbeneath), rfl⟩

/-- A path with a dot component and two separators in a row. -/
theorem parentPaths_lists_ancestors_dots :
    isAbs (str "/a/./b//c") = true ∧ ∃ ps, parentPaths (str "/a/./b//c") = some ps ∧ ps.Nodup ∧
      ps = [str "/a/./b//c", str "/a/b", str "/a", str "/"] := by
  obtain ⟨ps, -, hps, -, -, hnodup, -⟩ :=
    parentPaths_lists_ancestors (str "/a/./b//c") (by decide)
  refine ⟨by decide, ps, hps, hnodup, ?_⟩
  have hwalk : parentPaths (str "/a/./b//c") =
      some [str "/a/./b//c", str "/a/b", str "/a", str "/"] := by decide +kernel
  exact Option.some.inj (hps.symm.trans hwalk)

/-- The walk never visits a longer path. -/
theorem length_le_of_mem_chain {p q : Str} (h : isAbs p = true) (hq : q ∈ chain p) :
    q.length ≤ p.length := by
  unfold chain at hq
  split at hq
  · rename_i hp
    rw [List.mem_singleton.mp hq, hp]
  · rcases List.mem_cons.mp hq with rfl | hq
    · exact le_rfl
    · obtain ⟨k, hk, rfl⟩ := List.mem_map.mp hq
      obtain ⟨t, rfl⟩ := isAbs_iff.mp h
      rw [comps_slash, List.dropLast_cons_of_ne_nil (comps_ne_nil t), resolve_cons_nil] at hk
      obtain ⟨m, hm⟩ := mem_ancestors.mp hk
      have hweight := (weight_resolve_le (comps t).dropLast).trans (weight_dropLast_comps t)
      rw [← hm, List.map_append, weight_append] at hweight
      rw [length_path, List.length_cons]
      omega

theorem isAbs_dir_relative {p : Str} (h : ¬ isAbs p = true) : ¬ isAbs (dir p) = true := by
  have hpart : isAbs (dirPart p) = false := by
    rcases exists_last_comp p with ⟨hno, _⟩ | ⟨a, b, rfl, hb, _⟩
    · have hnil : dirPart p = [] :=
        List.rdropWhile_eq_nil_iff.mpr fun c hc => decide_eq_true fun he => hno (he ▸ hc)
      rw [hnil]
      rfl
    · rw [dirPart_append_slash a hb]
      cases a with
      | nil => exact absurd (isAbs_slash b) h
      | cons c cs =>
        rw [List.cons_append, isAbs_cons] at h ⊢
        simpa using h
  rw [dir, clean, hpart, isAbs_spell false
    (kept_cleanComps false fun _ hc => slash_not_mem_of_mem_comps hc)]
  simp

/-- A relative path never reaches `/`. -/
theorem parentPathsLoop_relative {p : Str} (h : ¬ isAbs p = true) (rounds : Nat) :
    parentPathsLoop rounds p = none := by
  refine loop_diverges (fun s => ¬ isAbs s.1 = true) ?_ h rounds
  rintro ⟨path, paths⟩ hpath
  refine ⟨_, parentPathsRound_step ?_ paths, isAbs_dir_relative hpath⟩
  rintro rfl
  exact hpath (isAbs_slash [])

/-- The bound on the number of rounds loses no result. -/
theorem parentPaths_eq_some_iff {p : Str} {ps : List Str} :
    parentPaths p = some ps ↔ ∃ rounds, parentPathsLoop rounds p = some ps := by
  constructor
  · exact fun h => ⟨_, h⟩
  · rintro ⟨rounds, h⟩
    by_cases habs : isAbs p = true
    · have hmax := loop_mono (Nat.le_max_left rounds (p.length + 2)) h
      have hrooted := parentPathsLoop_rooted habs (Nat.le_max_right rounds (p.length + 2))
      rw [parentPaths_rooted habs, ← hrooted]
      exact hmax
    · rw [parentPathsLoop_relative habs] at h
      cases h

theorem parentPaths_terminates_iff (p : Str) :
    LoopTerminates parentPathsRound (p, []) ↔ isAbs p = true := by
  constructor
  · rintro ⟨n, ps, h⟩
    by_contra habs
    have hnone := parentPathsLoop_relative habs n
    rw [parentPathsLoop, h] at hnone
    cases hnone
  · exact fun h => ⟨_, _, parentPaths_rooted h⟩

theorem canAccess_rooted {p : Str} (h : isAbs p = true) (ctx : AuthContext) (perm : Permission)
    (store : ACLStore) : canAccess ctx p perm store = some (decideOn ctx (chain p) perm store) := by
  rw [canAccess, parentPaths_rooted h]
  rfl

/-! ## Which canonical paths are visited -/

/-- The deepest location whose canonical path the walk visits, when it starts from a
rooted string with the components `cs` and without repeated separators: the whole path
if it has no dot components, and its directory part otherwise. -/
def reach (cs : List Str) : Loc :=
  if ∀ c ∈ cs, c ≠ dot ∧ c ≠ dotdot then resolve cs else resolve cs.dropLast

theorem val_ne_dots {k : Loc} : ∀ c ∈ comps k.path, c ≠ dot ∧ c ≠ dotdot := by
  have hnil : ([] : Str) ≠ dot ∧ ([] : Str) ≠ dotdot := by decide
  intro c hc
  cases k with
  | nil =>
    have hempty : c = [] := by simpa [Loc.path] using hc
    exact hempty ▸ hnil
  | cons n k =>
    rw [comps_path (by simp)] at hc
    rcases List.mem_cons.mp hc with rfl | hc
    · exact hnil
    · obtain ⟨m, _, rfl⟩ := List.mem_map.mp hc
      exact ⟨m.isName.2.1, m.isName.2.2.1⟩

theorem path_ne_of_trailing {s : Str} {cs : List Str} (hroot : slash :: s ≠ [slash])
    (hs : comps s = cs ++ [[]]) (k : Loc) : k.path ≠ slash :: s := by
  intro he
  rcases List.eq_nil_or_concat' k with rfl | ⟨l, n, rfl⟩
  · exact hroot he.symm
  · have hcomps := comps_path (l := l ++ [n]) (by simp)
    rw [he, comps_slash, hs, List.map_append, List.map_singleton] at hcomps
    have hlast := congrArg List.getLast? (List.cons.inj hcomps).2
    simp only [List.getLast?_append, List.getLast?_singleton, Option.some_or,
      Option.some.injEq] at hlast
    exact n.isName.1 hlast.symm

/-- Without dot components the walk visits the ancestors of the location itself: either
the string is its canonical spelling, or it only has a separator at the end. -/
theorem mem_chain_plain {s : Str} (h : ¬ twoSlashes <:+: slash :: s)
    (hroot : slash :: s ≠ [slash]) (hdots : ∀ c ∈ comps s, c ≠ dot ∧ c ≠ dotdot) (k : Loc) :
    (k.path = slash :: s ∨ k <+: resolve (comps s).dropLast) ↔ k <+: locate s := by
  obtain ⟨cs, d, hcs⟩ := exists_comps_concat s
  rw [locate, hcs, List.dropLast_concat]
  by_cases hd : d = []
  · subst hd
    rw [resolve_concat, Loc.enter_nil]
    exact or_iff_right (path_ne_of_trailing hroot hcs k)
  · have hmem : d ∈ comps s := by simp [hcs]
    have hname : IsName d :=
      ⟨hd, (hdots d hmem).1, (hdots d hmem).2, slash_not_mem_of_mem_comps hmem⟩
    have hself : (locate s).path = slash :: s := path_locate h hdots (by simp [hcs, hd])
    have hpath : k.path = slash :: s ↔ k = resolve cs ++ [⟨d, hname⟩] := by
      rw [← hself, path_injective.eq_iff, locate, hcs, resolve_concat_name cs hname]
    rw [hpath, resolve_concat_name cs hname, List.prefix_concat_iff]

theorem mem_chain_iff {s : Str} (h : ¬ twoSlashes <:+: slash :: s) (k : Loc) :
    k.path ∈ chain (slash :: s) ↔ k <+: reach (comps (slash :: s)) := by
  by_cases hroot : slash :: s = [slash]
  · have hreach : reach (comps [slash]) = [] := by decide
    rw [hroot, hreach, List.prefix_nil, chain, if_pos rfl, List.mem_singleton, ← path_nil,
      path_injective.eq_iff]
  · have hdrop : resolve (comps (slash :: s)).dropLast = resolve (comps s).dropLast := by
      rw [comps_slash, List.dropLast_cons_of_ne_nil (comps_ne_nil s), resolve_cons_nil]
    rw [chain, if_neg hroot, List.mem_cons, List.mem_map_of_injective path_injective,
      mem_ancestors, reach, hdrop]
    split
    · rename_i hdots
      rw [comps_slash, resolve_cons_nil]
      rw [comps_slash] at hdots
      exact mem_chain_plain h hroot (fun c hc => hdots c (List.mem_cons_of_mem _ hc)) k
    · rename_i hdots
      have hne : k.path ≠ slash :: s := fun he => hdots (he ▸ val_ne_dots)
      exact or_iff_right hne

end FileEngine.Auth
