import FileEngine.Auth.Ancestors

/-!
# The in-memory store and inheritance

`InMemoryACLStore` keeps a list of entries for each path; `SetACL` appends to it. The
decision over such a store is inheritance along the locations: an entry counts for its
own location and for everything beneath it, in the order of the segments and never of
the strings (`canAccess_inherits`).
-/

namespace FileEngine.Auth

open Go

structure InMemoryACLStore where
  data : Str → List ACL

namespace InMemoryACLStore

def new : InMemoryACLStore := ⟨fun _ => []⟩

def getACLs (s : InMemoryACLStore) (p : Str) : List ACL := s.data p

def setACL (s : InMemoryACLStore) (a : ACL) : InMemoryACLStore :=
  ⟨Function.update s.data a.path (s.data a.path ++ [a])⟩

/-- The store as `CanAccess` sees it: it has no batch query. -/
def asACLStore (s : InMemoryACLStore) : ACLStore := ⟨s.getACLs, none⟩

/-- The store after a sequence of `SetACL` calls. -/
def ofCalls (calls : List ACL) : InMemoryACLStore := calls.foldl setACL new

theorem ofCalls_concat (calls : List ACL) (a : ACL) :
    ofCalls (calls ++ [a]) = (ofCalls calls).setACL a := by
  simp [ofCalls]

theorem data_setACL (s : InMemoryACLStore) (a : ACL) (p : Str) :
    (s.setACL a).data p = s.data p ++ if a.path = p then [a] else [] := by
  by_cases h : a.path = p
  · subst h
    simp [setACL]
  · simp [setACL, h, Function.update_of_ne (Ne.symm h)]

/-- Under each path stand the calls for that path, in their order. -/
theorem data_ofCalls (calls : List ACL) (p : Str) :
    (ofCalls calls).data p = calls.filter (·.path = p) := by
  induction calls using List.reverseRecOn with
  | nil => rfl
  | append_singleton calls a ih =>
    rw [ofCalls_concat, data_setACL, ih, List.filter_append, List.filter_singleton]
    by_cases h : a.path = p <;> simp [h]

end InMemoryACLStore

/-- The decision over the entries found along the ancestor walk. -/
theorem decideOn_asACLStore (s : InMemoryACLStore) (ctx : AuthContext) (paths : List Str)
    (perm : Permission) :
    decideOn ctx paths perm s.asACLStore = true ↔
      ChainGrants ctx perm paths s.data ∨ RBAC ctx perm :=
  searchChain_iff ctx perm paths s.data

theorem permits_iff {acl : ACL} {perm : Permission} :
    acl.permits perm = true ↔ acl.permissions perm = some true := by
  unfold ACL.permits
  cases acl.permissions perm <;> simp

theorem canAccess_rooted_iff {p : Str} (h : isAbs p = true) (s : InMemoryACLStore)
    (ctx : AuthContext) (perm : Permission) :
    canAccess ctx p perm s.asACLStore = some true ↔
      ChainGrants ctx perm (chain p) s.data ∨ RBAC ctx perm := by
  rw [canAccess_rooted h, Option.some.injEq, decideOn_asACLStore]

/-- A store with one entry: at `p`, all permissions for one user. -/
def onlyAt (p userID : Str) : InMemoryACLStore :=
  .ofCalls [⟨p, str "user:" ++ userID, fun _ => some true⟩]

theorem canAccess_onlyAt {q : Str} (h : isAbs q = true) (p userID : Str) (perm : Permission) :
    canAccess ⟨userID, []⟩ q perm (onlyAt p userID).asACLStore = some (decide (p ∈ chain q)) := by
  have hrbac : ¬ RBAC ⟨userID, []⟩ perm := by simp [RBAC]
  have hgrants : ChainGrants ⟨userID, []⟩ perm (chain q) (onlyAt p userID).data ↔ p ∈ chain q := by
    simp only [ChainGrants, onlyAt, InMemoryACLStore.data_ofCalls, List.filter_singleton]
    constructor
    · rintro ⟨r, hr, acl, hacl, _⟩
      by_cases hp : p = r
      · exact hp ▸ hr
      · simp [hp] at hacl
    · intro hp
      exact ⟨p, hp, ⟨p, str "user:" ++ userID, fun _ => some true⟩, by simp, Or.inl rfl, rfl⟩
  rw [canAccess_rooted h, Option.some.injEq, Bool.eq_iff_iff, decideOn_asACLStore, hgrants]
  simp [hrbac]

/-- Some entry at `l` or above it is for the caller and grants the permission. -/
def Inherits (s : InMemoryACLStore) (ctx : AuthContext) (perm : Permission) (l : Loc) : Prop :=
  ∃ k : Loc, k <+: l ∧ ∃ acl ∈ s.data k.path,
    (acl.principalID = str "user:" ++ ctx.userID ∨
      ∃ r ∈ ctx.roles, acl.principalID = str "role:" ++ r) ∧
    acl.permissions perm = some true

theorem chainGrants_ancestors (s : InMemoryACLStore) (ctx : AuthContext) (perm : Permission)
    (l : Loc) : ChainGrants ctx perm ((ancestors l).map Loc.path) s.data ↔
      Inherits s ctx perm l := by
  constructor
  · rintro ⟨p, hp, acl, hacl, happ, hperm⟩
    obtain ⟨k, hk, rfl⟩ := List.mem_map.mp hp
    exact ⟨k, mem_ancestors.mp hk, acl, hacl, happ, permits_iff.mp hperm⟩
  · rintro ⟨k, hk, acl, hacl, happ, hperm⟩
    exact ⟨Loc.path k, List.mem_map_of_mem (mem_ancestors.mpr hk), acl, hacl, happ,
      permits_iff.mpr hperm⟩

theorem canAccess_path (s : InMemoryACLStore) (ctx : AuthContext) (perm : Permission) (l : Loc) :
    ∃ b, canAccess ctx l.path perm s.asACLStore = some b ∧
      (b = true ↔ Inherits s ctx perm l ∨ RBAC ctx perm) := by
  refine ⟨decideOn ctx ((ancestors l).map Loc.path) perm s.asACLStore, ?_, ?_⟩
  · rw [canAccess, parentPaths_path]
    rfl
  · rw [decideOn_asACLStore, chainGrants_ancestors]

/-- One more entry only ever adds what it grants itself. -/
theorem inherits_setACL (s : InMemoryACLStore) (a : ACL) (ctx : AuthContext) (perm : Permission)
    (l : Loc) : Inherits (s.setACL a) ctx perm l ↔ Inherits s ctx perm l ∨
      ((∃ k : Loc, k <+: l ∧ a.path = k.path) ∧ Applies ctx a ∧
        a.permissions perm = some true) := by
  simp only [Inherits, InMemoryACLStore.data_setACL, List.mem_append]
  constructor
  · rintro ⟨k, hk, acl, hacl | hacl, happ, hperm⟩
    · exact Or.inl ⟨k, hk, acl, hacl, happ, hperm⟩
    · by_cases hpath : a.path = Loc.path k
      · rw [if_pos hpath, List.mem_singleton] at hacl
        subst hacl
        exact Or.inr ⟨⟨k, hk, hpath⟩, happ, hperm⟩
      · simp [hpath] at hacl
  · rintro (⟨k, hk, acl, hacl, happ, hperm⟩ | ⟨⟨k, hk, hpath⟩, happ, hperm⟩)
    · exact ⟨k, hk, acl, Or.inl hacl, happ, hperm⟩
    · exact ⟨k, hk, a, Or.inr (by simp [hpath]), happ, hperm⟩

/-- What is inherited was granted by one of the calls. -/
theorem inherits_ofCalls (calls : List ACL) (ctx : AuthContext) (perm : Permission) (l : Loc) :
    Inherits (.ofCalls calls) ctx perm l ↔
      ∃ k : Loc, k <+: l ∧ ∃ acl ∈ calls, acl.path = k.path ∧ Applies ctx acl ∧
        acl.permissions perm = some true := by
  simp only [Inherits, InMemoryACLStore.data_ofCalls, List.mem_filter, decide_eq_true_eq, and_assoc,
    Applies]

/-- **Subtree inheritance.** Over a store reached by `SetACL` calls, the decision for a
canonical path is `true` exactly when one of the calls was for the path or an ancestor of it
and for the caller, and granted the permission, or a role of the caller has it by default. One
more `SetACL` changes the decision only beneath its path, for its principal and for a
permission it sets to `true`. -/
theorem canAccess_inherits (calls : List ACL) (ctx : AuthContext) (perm : Permission) (l : Loc) :
    (∃ b, canAccess ctx l.path perm (InMemoryACLStore.ofCalls calls).asACLStore = some b ∧
      (b = true ↔
        (∃ k : Loc, k <+: l ∧ ∃ acl ∈ calls, acl.path = k.path ∧
          (acl.principalID = str "user:" ++ ctx.userID ∨
            ∃ r ∈ ctx.roles, acl.principalID = str "role:" ++ r) ∧
          acl.permissions perm = some true) ∨
        ∃ r ∈ ctx.roles, rolePermits r perm = true)) ∧
    ∀ a : ACL,
      canAccess ctx l.path perm ((InMemoryACLStore.ofCalls calls).setACL a).asACLStore =
          canAccess ctx l.path perm (InMemoryACLStore.ofCalls calls).asACLStore ∨
        ((∃ k : Loc, k <+: l ∧ a.path = k.path) ∧
          (a.principalID = str "user:" ++ ctx.userID ∨
            ∃ r ∈ ctx.roles, a.principalID = str "role:" ++ r) ∧
          a.permissions perm = some true) := by
  obtain ⟨b, hb, hbiff⟩ := canAccess_path (InMemoryACLStore.ofCalls calls) ctx perm l
  refine ⟨⟨b, hb, hbiff.trans (or_congr_left (inherits_ofCalls calls ctx perm l))⟩, fun a => ?_⟩
  obtain ⟨b', hb', hbiff'⟩ := canAccess_path ((InMemoryACLStore.ofCalls calls).setACL a) ctx perm l
  rw [hb, hb']
  by_cases hnew : (∃ k : Loc, k <+: l ∧ a.path = k.path) ∧ Applies ctx a ∧
      a.permissions perm = some true
  · exact Or.inr hnew
  · have hsame : b' = b := by
      rw [Bool.eq_iff_iff, hbiff, hbiff', inherits_setACL]
      simp only [hnew, or_false]
    exact Or.inl (by rw [hsame])

/-- A sibling whose name continues the string of the path is not beneath it. -/
example :
    let acl : ACL := ⟨str "/a", str "user:1", fun _ => some true⟩
    canAccess ⟨str "1", []⟩ (str "/ab") permRead
      (InMemoryACLStore.ofCalls [acl]).asACLStore = some false := by decide

end FileEngine.Auth
