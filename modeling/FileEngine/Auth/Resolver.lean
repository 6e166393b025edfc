import FileEngine.Go.Filepath
import FileEngine.Go.Loop

/-!
# The authorization resolver

`internal/auth`: the data model of access control lists, the role table, the ancestor
walk `parentPaths` and the resolver `canAccess`.

A Go map is read as a function to `Option`, `none` for a missing key; reading a
missing key of a `map[Permission]bool` gives `false` (`ACL.permits`). An `ACLStore`
that also implements `ACLBatchStore` carries its `GetACLsForPaths`.

`parentPaths` is a loop without a bound in the source. `parentPathsLoop` is that loop;
`parentPaths` runs it for `path.length + 2` rounds, which is enough whenever the loop
ends at all (`parentPaths_eq_some_iff` in `Ancestors`).

`searchChain` is the search that `CanAccess` contains twice: over the regrouped rows of
a batch query, and over `GetACLs` path by path.
-/

namespace FileEngine.Auth

open Go

abbrev Permission := Str

def permRead : Permission := str "read"
def permWrite : Permission := str "write"
def permDelete : Permission := str "delete"
def permList : Permission := str "list"

structure AuthContext where
  userID : Str
  roles : List Str

structure ACL where
  path : Str
  principalID : Str
  permissions : Permission → Option Bool

def ACL.permits (acl : ACL) (perm : Permission) : Bool := (acl.permissions perm).getD false

/-- `Roles`, the default permissions of the roles. -/
def roles : List (Str × List (Permission × Bool)) :=
  [(str "admin", [(permRead, true), (permWrite, true), (permDelete, true), (permList, true)]),
    (str "editor", [(permRead, true), (permWrite, true), (permList, true)]),
    (str "viewer", [(permRead, true), (permList, true)])]

/-- `Roles[r][perm]`. -/
def rolePermits (r : Str) (perm : Permission) : Bool :=
  (((roles.lookup r).getD []).lookup perm).getD false

structure ACLStore where
  getACLs : Str → List ACL
  getACLsForPaths : Option (List Str → Except Str (List ACL))

/-! ## The ancestor walk -/

/-- One round: the current path is appended, and the loop breaks at `/`. -/
def parentPathsRound : Str × List Str → (Str × List Str) ⊕ List Str
  | (path, paths) =>
      let paths := paths ++ [path]
      if path = [slash] then .inr paths else .inl (dir path, paths)

def parentPathsLoop (rounds : Nat) (path : Str) : Option (List Str) :=
  loop parentPathsRound rounds (path, [])

def parentPaths (path : Str) : Option (List Str) := parentPathsLoop (path.length + 2) path

/-! ## The resolver -/

/-- The body of the loop over the entries of one path. -/
def entryGrants (ctx : AuthContext) (perm : Permission) (acl : ACL) : Bool := Id.run do
  if acl.principalID = str "user:" ++ ctx.userID ∧ acl.permits perm then
    return true
  for r in ctx.roles do
    if acl.principalID = str "role:" ++ r ∧ acl.permits perm then
      return true
  return false

def searchChain (ctx : AuthContext) (perm : Permission) (paths : List Str)
    (aclsAt : Str → List ACL) : Bool := Id.run do
  for p in paths do
    for acl in aclsAt p do
      if entryGrants ctx perm acl then
        return true
  for r in ctx.roles do
    if rolePermits r perm then
      return true
  return false

/-- `byPath`: the rows of a batch query, regrouped by their path. -/
def groupByPath (acls : List ACL) : Str → List ACL :=
  acls.foldl (fun byPath a => Function.update byPath a.path (byPath a.path ++ [a])) fun _ => []

/-- The decision once the ancestor walk has ended. -/
def decideOn (ctx : AuthContext) (paths : List Str) (perm : Permission) (store : ACLStore) :
    Bool :=
  match store.getACLsForPaths with
  | some getACLsForPaths =>
      match getACLsForPaths paths with
      | .ok acls => searchChain ctx perm paths (groupByPath acls)
      | .error _ => searchChain ctx perm paths store.getACLs
  | none => searchChain ctx perm paths store.getACLs

/-- `CanAccess`; `none` when the ancestor walk does not end. -/
def canAccess (ctx : AuthContext) (path : Str) (perm : Permission) (store : ACLStore) :
    Option Bool :=
  (parentPaths path).map fun paths => decideOn ctx paths perm store

/-! ## What the search finds -/

/-- The entry is for the caller: for the user, or for one of the roles. -/
def Applies (ctx : AuthContext) (acl : ACL) : Prop :=
  acl.principalID = str "user:" ++ ctx.userID ∨
    ∃ r ∈ ctx.roles, acl.principalID = str "role:" ++ r

instance (ctx : AuthContext) (acl : ACL) : Decidable (Applies ctx acl) :=
  inferInstanceAs (Decidable (_ ∨ _))

/-- Some role of the caller has the permission by default. -/
def RBAC (ctx : AuthContext) (perm : Permission) : Prop :=
  ∃ r ∈ ctx.roles, rolePermits r perm = true

instance (ctx : AuthContext) (perm : Permission) : Decidable (RBAC ctx perm) :=
  inferInstanceAs (Decidable (∃ r ∈ ctx.roles, _))

/-- Some entry at one of the paths is for the caller and grants the permission. -/
def ChainGrants (ctx : AuthContext) (perm : Permission) (paths : List Str)
    (aclsAt : Str → List ACL) : Prop :=
  ∃ p ∈ paths, ∃ acl ∈ aclsAt p, Applies ctx acl ∧ acl.permits perm = true

theorem entryGrants_iff (ctx : AuthContext) (perm : Permission) (acl : ACL) :
    entryGrants ctx perm acl = true ↔ Applies ctx acl ∧ acl.permits perm = true := by
  let hit (r : Str) : Bool := decide (acl.principalID = str "role:" ++ r ∧ acl.permits perm = true)
  have hany : ctx.roles.any hit = true ↔
      (∃ r ∈ ctx.roles, acl.principalID = str "role:" ++ r) ∧ acl.permits perm = true := by
    simp only [hit, List.any_eq_true, decide_eq_true_eq]
    exact ⟨fun ⟨r, hr, hp, hperm⟩ => ⟨⟨r, hr, hp⟩, hperm⟩,
      fun ⟨⟨r, hr, hp⟩, hperm⟩ => ⟨r, hr, hp, hperm⟩⟩
  unfold entryGrants
  rw [forIn_search ctx.roles hit _ fun r _ _ => by simp only [hit, decide_eq_true_eq]; rfl]
  by_cases huser : acl.principalID = str "user:" ++ ctx.userID ∧ acl.permits perm
  · rw [if_pos huser]
    exact iff_of_true rfl ⟨Or.inl huser.1, huser.2⟩
  · rw [if_neg huser]
    cases h : ctx.roles.any hit with
    | true =>
      obtain ⟨hrole, hperm⟩ := hany.mp h
      exact iff_of_true rfl ⟨Or.inr hrole, hperm⟩
    | false =>
      refine iff_of_false Bool.false_ne_true ?_
      rintro ⟨hu | hrole, hperm⟩
      · exact huser ⟨hu, hperm⟩
      · exact absurd (hany.mpr ⟨hrole, hperm⟩) (by simp [h])

/-- The early returns of the nested loops, as one Boolean expression. -/
theorem searchChain_eq (ctx : AuthContext) (perm : Permission) (paths : List Str)
    (aclsAt : Str → List ACL) :
    searchChain ctx perm paths aclsAt =
      ((paths.any fun p => (aclsAt p).any (entryGrants ctx perm)) ||
        ctx.roles.any fun r => rolePermits r perm) := by
  have hentries : ∀ p, (forIn (aclsAt p) (none, ()) (fun acl _ =>
      if entryGrants ctx perm acl = true then pure (ForInStep.done (some true, ()))
      else pure (ForInStep.yield (none, ()))) : Id (Option Bool × Unit)) =
      (if (aclsAt p).any (entryGrants ctx perm) then some true else none, ()) :=
    fun p => forIn_search (aclsAt p) (entryGrants ctx perm) _ fun _ _ _ => rfl
  unfold searchChain
  simp only [hentries]
  rw [forIn_search paths (fun p => (aclsAt p).any (entryGrants ctx perm)) _ fun p _ _ => by
      cases (aclsAt p).any (entryGrants ctx perm) <;> rfl,
    forIn_search ctx.roles (fun r => rolePermits r perm) _ fun _ _ _ => by rfl]
  cases paths.any fun p => (aclsAt p).any (entryGrants ctx perm) <;>
    cases ctx.roles.any fun r => rolePermits r perm <;> rfl

theorem searchChain_iff (ctx : AuthContext) (perm : Permission) (paths : List Str)
    (aclsAt : Str → List ACL) :
    searchChain ctx perm paths aclsAt = true ↔
      ChainGrants ctx perm paths aclsAt ∨ RBAC ctx perm := by
  simp only [searchChain_eq, Bool.or_eq_true, List.any_eq_true, entryGrants_iff, ChainGrants, RBAC]

end FileEngine.Auth
