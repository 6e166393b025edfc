import FileEngine.Auth.Batch
import FileEngine.Auth.InMemory
import FileEngine.Authz.PathExtract

/-!
# The spellings of a location

Storage reads all spellings of a location alike: `filepath.Clean("/" + p)` is the
canonical path of `locate p`. The resolver asks for the entries at `normalize p` and at
the cleaned ancestors of it. `normalize` keeps `.` and `..`, so the first of these
strings need not be a canonical path, and then the entries of the location itself are
not looked at.

`inheritsGrants_iff` says for which request paths that matters: those with a `.` or `..`
component somewhere and a name at the end.
-/

namespace FileEngine.Authz

open Go Auth

/-- Every entry at a canonical path, at the location of `p` or above it, that is for the
caller and grants the permission lets the caller through. -/
def InheritsGrants (p : Str) : Prop :=
  ∀ store : ACLStore, store.Coherent → ∀ (ctx : AuthContext) (perm : Permission) (q : Str),
    Canonical q → ∀ acl ∈ store.getACLs q, Applies ctx acl → acl.permits perm = true →
    AtOrBeneath q (clean (slash :: p)) → canAccess ctx (normalize p) perm store = some true

/-- A last component `.`, `..` or nothing, or no dot component at all. -/
def PlainOrOpen (p : Str) : Prop :=
  (∀ c ∈ comps p, c ≠ dot ∧ c ≠ dotdot) ∨ ∀ c ∈ (comps p).getLast?, ¬ IsName c

/-- A grant at one of the strings that the walk visits is found. -/
theorem canAccess_of_mem_chain {store : ACLStore} (hstore : store.Coherent) {ctx : AuthContext}
    {perm : Permission} {p q : Str} {acl : ACL} (hp : isAbs p = true) (hq : q ∈ chain p)
    (hacl : acl ∈ store.getACLs q) (happ : Applies ctx acl) (hperm : acl.permits perm = true) :
    canAccess ctx p perm store = some true := by
  rw [canAccess_coherent hstore, canAccess_rooted hp]
  have hsearch : searchChain ctx perm (chain p) store.getACLs = true :=
    (searchChain_iff ctx perm _ _).mpr (Or.inl ⟨q, hq, acl, hacl, happ, hperm⟩)
  exact congrArg some hsearch

theorem coherent_asACLStore (s : InMemoryACLStore) : s.asACLStore.Coherent := by
  intro batch hbatch
  cases hbatch

/-- All grants are inherited exactly if the check looks for entries down to the location
itself. -/
theorem inheritsGrants_iff_checkedLoc (p : Str) :
    InheritsGrants p ↔ locate p <+: checkedLoc p := by
  constructor
  · intro h
    have hself : AtOrBeneath (locate p).path (clean (slash :: p)) := by
      rw [clean_slash, atOrBeneath_path]
    have hgrant := h (onlyAt (locate p).path []).asACLStore (coherent_asACLStore _) ⟨[], []⟩
      permRead (locate p).path ⟨_, rfl⟩ ⟨(locate p).path, str "user:", fun _ => some true⟩
      (by simp [InMemoryACLStore.asACLStore, InMemoryACLStore.getACLs, onlyAt,
        InMemoryACLStore.data_ofCalls])
      (Or.inl rfl) rfl hself
    rw [canAccess_onlyAt (isAbs_normalize p), Option.some.injEq, decide_eq_true_eq] at hgrant
    exact (mem_chain_normalize p _).mp hgrant
  · intro h store hstore ctx perm q hq acl hacl happ hperm hbeneath
    obtain ⟨k, rfl⟩ := hq
    rw [clean_slash, atOrBeneath_path] at hbeneath
    have hk : k.path ∈ chain (normalize p) := (mem_chain_normalize p k).mpr (hbeneath.trans h)
    exact canAccess_of_mem_chain hstore (isAbs_normalize p) hk hacl happ hperm

theorem locate_prefix_checkedLoc_iff {p : Str} (h : trimSpace p = p) :
    locate p <+: checkedLoc p ↔ PlainOrOpen p := by
  obtain ⟨cs, d, hcs⟩ := exists_comps_concat p
  have hslash : slash ∉ d := slash_not_mem_of_mem_comps (p := p) (by simp [hcs])
  rw [PlainOrOpen, checkedLoc, h, reach, locate, hcs, List.dropLast_concat]
  split
  · rename_i hdots
    exact iff_of_true List.prefix_rfl (Or.inl hdots)
  · rename_i hdots
    rw [or_iff_right hdots]
    simp only [List.getLast?_append, List.getLast?_singleton, Option.some_or, Option.mem_def,
      Option.some.injEq, forall_eq']
    by_cases hname : IsName d
    · refine iff_of_false (fun hpre => ?_) fun hnot => hnot hname
      rw [resolve_concat_name cs hname] at hpre
      have := hpre.length_le
      rw [List.length_append, List.length_singleton] at this
      omega
    · refine iff_of_true ?_ hname
      rw [resolve_concat]
      by_cases hdd : d = dotdot
      · rw [hdd, Loc.enter_dotdot]
        exact List.dropLast_prefix _
      · rw [Loc.enter, if_neg hdd, dif_neg hname]

/-- **Spellings and grants.** A request path without white space at its ends inherits the
grants of its location exactly if it has no `.` or `..` component or does not end in a
name. -/
theorem inheritsGrants_iff {p : Str} (h : trimSpace p = p) : InheritsGrants p ↔ PlainOrOpen p :=
  (inheritsGrants_iff_checkedLoc p).trans (locate_prefix_checkedLoc_iff h)

/-- A grant on `/a/b` is not found for `/a/./b`. -/
theorem grant_missed_behind_dot :
    trimSpace (str "/a/./b") = str "/a/./b" ∧ clean (str "//a/./b") = str "/a/b" ∧
      canAccess ⟨str "7", []⟩ (normalize (str "/a/./b")) permRead
        (onlyAt (str "/a/b") (str "7")).asACLStore = some false := by
  have hnorm : normalize (str "/a/./b") = str "/a/./b" := by rw [normalize_eq]; decide
  refine ⟨by decide, by decide, ?_⟩
  rw [hnorm]
  decide

theorem inheritsGrants_slashes : InheritsGrants (str "a//b/c/") :=
  (inheritsGrants_iff (p := str "a//b/c/") (by decide)).mpr (Or.inl (by decide))

end FileEngine.Authz
