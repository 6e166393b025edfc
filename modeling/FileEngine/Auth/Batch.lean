import FileEngine.Auth.Resolver
import Mathlib.Tactic.Common

/-!
# The batch branch of the resolver

`CanAccess` asks a store that implements `ACLBatchStore` for the entries of all paths at
once and regroups the rows by path. The two searches agree as soon as the rows of a
path are, in any order and with any repetition, the entries of that path; rows for other
paths do not matter, since the search only looks at the paths it asked for.
-/

namespace FileEngine.Auth

open Go

theorem groupByPath_foldl (rows : List ACL) (byPath : Str → List ACL) (p : Str) :
    rows.foldl (fun m a => Function.update m a.path (m a.path ++ [a])) byPath p =
      byPath p ++ rows.filter (·.path = p) := by
  induction rows generalizing byPath with
  | nil => simp
  | cons a rows ih =>
    rw [List.foldl_cons, ih]
    by_cases h : a.path = p
    · subst h
      simp
    · simp [h, Function.update_of_ne (Ne.symm h)]

theorem groupByPath_eq (rows : List ACL) (p : Str) :
    groupByPath rows p = rows.filter (·.path = p) :=
  groupByPath_foldl rows (fun _ => []) p

/-- More entries never take a grant away. -/
theorem searchChain_mono {ctx : AuthContext} {perm : Permission} {paths : List Str}
    {f g : Str → List ACL}
    (h : ∀ p ∈ paths, ∀ acl ∈ f p, acl.permits perm = true → acl ∈ g p)
    (hf : searchChain ctx perm paths f = true) : searchChain ctx perm paths g = true := by
  rw [searchChain_iff] at hf ⊢
  rcases hf with ⟨p, hp, acl, hacl, happ, hperm⟩ | hrbac
  · exact Or.inl ⟨p, hp, acl, h p hp acl hacl hperm, happ, hperm⟩
  · exact Or.inr hrbac

/-- The search only depends on which entries stand at the paths of the chain. -/
theorem searchChain_congr (ctx : AuthContext) (perm : Permission) {paths : List Str}
    {f g : Str → List ACL} (h : ∀ p ∈ paths, ∀ acl, acl ∈ f p ↔ acl ∈ g p) :
    searchChain ctx perm paths f = searchChain ctx perm paths g := by
  rw [Bool.eq_iff_iff]
  constructor
  · exact searchChain_mono fun p hp acl hacl _ => (h p hp acl).mp hacl
  · exact searchChain_mono fun p hp acl hacl _ => (h p hp acl).mpr hacl

/-- What a batch query promises: whenever it succeeds, the rows it returns for a path
that was asked for are the entries of that path. Their order and multiplicity are
free, and so are rows for other paths. -/
def BatchAgrees (getACLs : Str → List ACL)
    (getACLsForPaths : List Str → Except Str (List ACL)) : Prop :=
  ∀ paths rows, getACLsForPaths paths = .ok rows →
    ∀ p ∈ paths, ∀ acl, acl ∈ rows.filter (·.path = p) ↔ acl ∈ getACLs p

theorem canAccess_batch_error {getACLs : Str → List ACL}
    {getACLsForPaths : List Str → Except Str (List ACL)} {path : Str} {paths : List Str}
    {e : Str} (hpaths : parentPaths path = some paths) (he : getACLsForPaths paths = .error e)
    (ctx : AuthContext) (perm : Permission) :
    canAccess ctx path perm ⟨getACLs, some getACLsForPaths⟩ =
      canAccess ctx path perm ⟨getACLs, none⟩ := by
  simp only [canAccess, hpaths, Option.map_some, decideOn, he]

theorem canAccess_batch_ok {getACLs : Str → List ACL}
    {getACLsForPaths : List Str → Except Str (List ACL)} {path : Str} {paths : List Str}
    {rows : List ACL} (hpaths : parentPaths path = some paths)
    (hrows : getACLsForPaths paths = .ok rows)
    (hagree : ∀ p ∈ paths, ∀ acl, acl ∈ rows.filter (·.path = p) ↔ acl ∈ getACLs p)
    (ctx : AuthContext) (perm : Permission) :
    canAccess ctx path perm ⟨getACLs, some getACLsForPaths⟩ =
      canAccess ctx path perm ⟨getACLs, none⟩ := by
  have hsame : searchChain ctx perm paths (groupByPath rows) =
      searchChain ctx perm paths getACLs := by
    refine searchChain_congr ctx perm fun p hp acl => ?_
    rw [groupByPath_eq]
    exact hagree p hp acl
  simp only [canAccess, hpaths, Option.map_some, decideOn, hrows, hsame]

/-- A store whose batch query, if it has one, keeps its promise. -/
def ACLStore.Coherent (store : ACLStore) : Prop :=
  ∀ getACLsForPaths, store.getACLsForPaths = some getACLsForPaths →
    BatchAgrees store.getACLs getACLsForPaths

theorem canAccess_coherent {store : ACLStore} (h : store.Coherent) (ctx : AuthContext)
    (path : Str) (perm : Permission) :
    canAccess ctx path perm store = canAccess ctx path perm ⟨store.getACLs, none⟩ := by
  obtain ⟨getACLs, _ | getACLsForPaths⟩ := store
  · rfl
  · have hagree : BatchAgrees getACLs getACLsForPaths := h getACLsForPaths rfl
    cases hpaths : parentPaths path with
    | none => simp only [canAccess, hpaths, Option.map_none]
    | some paths =>
      cases hrows : getACLsForPaths paths with
      | error e => exact canAccess_batch_error hpaths hrows ctx perm
      | ok rows => exact canAccess_batch_ok hpaths hrows (hagree paths rows hrows) ctx perm

/-- **The batch branch agrees with the per-path branch** on every path on which the
ancestor walk ends, and after a failed batch query without any assumption on the store. -/
theorem canAccess_batch (getACLs : Str → List ACL)
    (getACLsForPaths : List Str → Except Str (List ACL)) {path : Str} {paths : List Str}
    (hpaths : parentPaths path = some paths) :
    (BatchAgrees getACLs getACLsForPaths → ∀ (ctx : AuthContext) (perm : Permission),
      canAccess ctx path perm ⟨getACLs, some getACLsForPaths⟩ =
        canAccess ctx path perm ⟨getACLs, none⟩) ∧
    (∀ e, getACLsForPaths paths = .error e → ∀ (ctx : AuthContext) (perm : Permission),
      canAccess ctx path perm ⟨getACLs, some getACLsForPaths⟩ =
        canAccess ctx path perm ⟨getACLs, none⟩) := by
  constructor
  · intro hagree ctx perm
    refine canAccess_coherent ?_ ctx path perm
    rintro batch hbatch
    obtain rfl : getACLsForPaths = batch := Option.some.inj hbatch
    exact hagree
  · intro e he ctx perm
    exact canAccess_batch_error hpaths he ctx perm

/-- A store with one entry at `/a`, whose batch query returns it twice and adds a row
for another path. -/
theorem canAccess_batch_repeated :
    let acl : ACL := ⟨str "/a", str "role:ops", fun _ => some true⟩
    let noise : ACL := ⟨str "/z", str "user:1", fun _ => some true⟩
    let getACLs : Str → List ACL := fun p =>
      if p = str "/a" then [acl] else if p = str "/z" then [noise] else []
    let batch : List Str → Except Str (List ACL) := fun _ => .ok [noise, acl, acl]
    parentPaths (str "/a/b") = some [str "/a/b", str "/a", str "/"] ∧
      canAccess ⟨str "1", [str "ops"]⟩ (str "/a/b") permRead ⟨getACLs, some batch⟩ =
        canAccess ⟨str "1", [str "ops"]⟩ (str "/a/b") permRead ⟨getACLs, none⟩ := by
  intro acl noise getACLs batch
  have hpaths : parentPaths (str "/a/b") = some [str "/a/b", str "/a", str "/"] := by decide
  refine ⟨hpaths, (canAccess_batch getACLs batch hpaths).1 ?_ _ _⟩
  intro paths rows hrows p _ b
  obtain rfl : [noise, acl, acl] = rows := Except.ok.inj hrows
  by_cases ha : p = str "/a"
  · subst ha
    have hz : ¬ str "/z" = str "/a" := by decide
    simp [getACLs, acl, noise, hz]
  · by_cases hz : p = str "/z"
    · subst hz
      have haz : ¬ str "/a" = str "/z" := by decide
      simp [getACLs, acl, noise, Ne.symm haz, haz]
    · simp [getACLs, acl, noise, ha, hz, Ne.symm ha, Ne.symm hz]

end FileEngine.Auth
