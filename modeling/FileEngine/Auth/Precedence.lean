import FileEngine.Auth.Batch
import FileEngine.Auth.InMemory
import Mathlib.Data.List.Nodup

/-!
# The closest entry

`docs/auth.md` and section 8 of `docs/architecture/file-engine.md` describe a resolver in
which the closest entry decides: first the closest one for the user, then the closest
ones for the roles, then the role table. `closestWins` is that resolver; an entry takes
part in it when it mentions the permission, with `true` or with `false`.

The code only allows: `searchChain` stops at the first `true` and skips every `false`. So
the two differ exactly when a denial that should decide is overruled by a grant somewhere
else (`DenialOverruled`, `canAccess_closestWins_iff`).
-/

namespace FileEngine.Auth

open Go

/-! ## The documented resolver -/

def isUserEntry (ctx : AuthContext) (acl : ACL) : Prop :=
  acl.principalID = str "user:" ++ ctx.userID

def isRoleEntry (ctx : AuthContext) (acl : ACL) : Prop :=
  ∃ r ∈ ctx.roles, acl.principalID = str "role:" ++ r

instance (ctx : AuthContext) (acl : ACL) : Decidable (isUserEntry ctx acl) :=
  inferInstanceAs (Decidable (_ = _))

instance (ctx : AuthContext) (acl : ACL) : Decidable (isRoleEntry ctx acl) :=
  inferInstanceAs (Decidable (∃ r ∈ ctx.roles, _))

/-- What the entry of the user at one path says about the permission. -/
def userVerdict (ctx : AuthContext) (perm : Permission) (acls : List ACL) : Option Bool :=
  acls.findSome? fun acl => if isUserEntry ctx acl then acl.permissions perm else none

/-- What the entries of the roles at one path say: granted if one of them grants. -/
def roleVerdict (ctx : AuthContext) (perm : Permission) (acls : List ACL) : Option Bool :=
  let mentions := acls.filterMap fun acl =>
    if isRoleEntry ctx acl then acl.permissions perm else none
  if mentions = [] then none else some (mentions.any id)

/-- The resolution order of the documentation, along the paths from the nearest on. -/
def closestWins (ctx : AuthContext) (perm : Permission) (paths : List Str)
    (aclsAt : Str → List ACL) : Bool :=
  match paths.findSome? fun p => userVerdict ctx perm (aclsAt p) with
  | some b => b
  | none =>
      match paths.findSome? fun p => roleVerdict ctx perm (aclsAt p) with
      | some b => b
      | none => decide (RBAC ctx perm)

/-! ## Denials -/

def UserMentions (ctx : AuthContext) (perm : Permission) (acls : List ACL) : Prop :=
  ∃ acl ∈ acls, isUserEntry ctx acl ∧ acl.permissions perm ≠ none

def UserDenies (ctx : AuthContext) (perm : Permission) (acls : List ACL) : Prop :=
  ∃ acl ∈ acls, isUserEntry ctx acl ∧ acl.permissions perm = some false

def RoleMentions (ctx : AuthContext) (perm : Permission) (acls : List ACL) : Prop :=
  ∃ acl ∈ acls, isRoleEntry ctx acl ∧ acl.permissions perm ≠ none

/-- The roles are mentioned, and no entry of theirs grants. -/
def RolesDeny (ctx : AuthContext) (perm : Permission) (acls : List ACL) : Prop :=
  RoleMentions ctx perm acls ∧
    ∀ acl ∈ acls, isRoleEntry ctx acl → acl.permissions perm ≠ some true

/-- Something on the chain or in the role table grants the permission, although the
entry that comes first in the documented order denies it. -/
def DenialOverruled (ctx : AuthContext) (perm : Permission) (paths : List Str)
    (aclsAt : Str → List ACL) : Prop :=
  (ChainGrants ctx perm paths aclsAt ∨ RBAC ctx perm) ∧
    ∃ nearer q farther, paths = nearer ++ q :: farther ∧
      ((UserDenies ctx perm (aclsAt q) ∧ ∀ k ∈ nearer, ¬ UserMentions ctx perm (aclsAt k)) ∨
        (RolesDeny ctx perm (aclsAt q) ∧ (∀ k ∈ paths, ¬ UserMentions ctx perm (aclsAt k)) ∧
          ∀ k ∈ nearer, ¬ RoleMentions ctx perm (aclsAt k)))

/-- At most one entry for each principal. -/
def OnePerPrincipal (acls : List ACL) : Prop := (acls.map ACL.principalID).Nodup

theorem OnePerPrincipal.eq {acls : List ACL} (h : OnePerPrincipal acls) {a b : ACL}
    (ha : a ∈ acls) (hb : b ∈ acls) (hab : a.principalID = b.principalID) : a = b :=
  List.inj_on_of_nodup_map h ha hb hab

theorem userVerdict_none {ctx : AuthContext} {perm : Permission} {acls : List ACL} :
    userVerdict ctx perm acls = none ↔ ¬ UserMentions ctx perm acls := by
  simp only [userVerdict, List.findSome?_eq_none_iff, UserMentions, not_exists, not_and, not_not]
  refine forall_congr' fun acl => forall_congr' fun _ => ?_
  by_cases h : isUserEntry ctx acl <;> simp [h]

theorem userVerdict_some {ctx : AuthContext} {perm : Permission} {acls : List ACL} {b : Bool}
    (hone : OnePerPrincipal acls) : userVerdict ctx perm acls = some b ↔
      ∃ acl ∈ acls, isUserEntry ctx acl ∧ acl.permissions perm = some b := by
  constructor
  · intro h
    obtain ⟨acl, hacl, hv⟩ := List.exists_of_findSome?_eq_some h
    by_cases hu : isUserEntry ctx acl
    · exact ⟨acl, hacl, hu, by simpa [hu] using hv⟩
    · simp [hu] at hv
  · rintro ⟨acl, hacl, hu, hperm⟩
    cases hv : userVerdict ctx perm acls with
    | none =>
      exact absurd ⟨acl, hacl, hu, by simp [hperm]⟩ (userVerdict_none.mp hv)
    | some b' =>
      obtain ⟨acl', hacl', hv'⟩ := List.exists_of_findSome?_eq_some hv
      by_cases hu' : isUserEntry ctx acl'
      · -- there is only one entry for the user
        obtain rfl := hone.eq hacl hacl' (hu.trans hu'.symm)
        rw [if_pos hu', hperm] at hv'
        exact hv'.symm
      · simp [hu'] at hv'

theorem mem_roleMentions {ctx : AuthContext} {perm : Permission} {acls : List ACL} {b : Bool} :
    b ∈ acls.filterMap (fun acl => if isRoleEntry ctx acl then acl.permissions perm else none) ↔
      ∃ acl ∈ acls, isRoleEntry ctx acl ∧ acl.permissions perm = some b := by
  simp only [List.mem_filterMap]
  refine exists_congr fun acl => and_congr_right fun _ => ?_
  by_cases h : isRoleEntry ctx acl <;> simp [h]

theorem roleVerdict_none {ctx : AuthContext} {perm : Permission} {acls : List ACL} :
    roleVerdict ctx perm acls = none ↔ ¬ RoleMentions ctx perm acls := by
  simp only [roleVerdict]
  split
  · rename_i h
    refine iff_of_true rfl ?_
    rintro ⟨acl, hacl, hrole, hne⟩
    obtain ⟨b, hb⟩ := Option.ne_none_iff_exists'.mp hne
    have := mem_roleMentions.mpr ⟨acl, hacl, hrole, hb⟩
    simp [h] at this
  · rename_i h
    obtain ⟨b, hb⟩ := List.exists_mem_of_ne_nil _ h
    obtain ⟨acl, hacl, hrole, hperm⟩ := mem_roleMentions.mp hb
    exact iff_of_false (by simp) (not_not.mpr ⟨acl, hacl, hrole, by simp [hperm]⟩)

theorem roleVerdict_true {ctx : AuthContext} {perm : Permission} {acls : List ACL}
    (h : roleVerdict ctx perm acls = some true) :
    ∃ acl ∈ acls, isRoleEntry ctx acl ∧ acl.permissions perm = some true := by
  simp only [roleVerdict] at h
  split at h
  · cases h
  · obtain ⟨b, hb, hid⟩ := List.any_eq_true.mp (Option.some.inj h)
    exact mem_roleMentions.mp (show true ∈ _ from (id hid : b = true) ▸ hb)

theorem roleVerdict_false {ctx : AuthContext} {perm : Permission} {acls : List ACL} :
    roleVerdict ctx perm acls = some false ↔ RolesDeny ctx perm acls := by
  constructor
  · intro h
    refine ⟨?_, fun acl hacl hrole hperm => ?_⟩
    · by_contra hno
      rw [roleVerdict_none.mpr hno] at h
      cases h
    · simp only [roleVerdict] at h
      split at h
      · cases h
      · have hany := List.any_eq_false.mp (Option.some.inj h) true
          (mem_roleMentions.mpr ⟨acl, hacl, hrole, hperm⟩)
        simp at hany
  · rintro ⟨hmention, hdeny⟩
    cases hv : roleVerdict ctx perm acls with
    | none => exact absurd hmention (roleVerdict_none.mp hv)
    | some b =>
      cases b with
      | false => rfl
      | true =>
        obtain ⟨acl, hacl, hrole, hperm⟩ := roleVerdict_true hv
        exact absurd hperm (hdeny acl hacl hrole)

/-! ## Comparison -/

theorem chainGrants_mentions {ctx : AuthContext} {perm : Permission} {paths : List Str}
    {aclsAt : Str → List ACL} (h : ChainGrants ctx perm paths aclsAt) :
    ∃ p ∈ paths, UserMentions ctx perm (aclsAt p) ∨ RoleMentions ctx perm (aclsAt p) := by
  obtain ⟨p, hp, acl, hacl, happ, hperm⟩ := h
  have hne : acl.permissions perm ≠ none := by simp [permits_iff.mp hperm]
  rcases happ with hu | hr
  · exact ⟨p, hp, Or.inl ⟨acl, hacl, hu, hne⟩⟩
  · exact ⟨p, hp, Or.inr ⟨acl, hacl, hr, hne⟩⟩

/-- What the documentation grants, the code grants. -/
theorem grants_of_closestWins {ctx : AuthContext} {perm : Permission} {paths : List Str}
    {aclsAt : Str → List ACL} (hone : ∀ p ∈ paths, OnePerPrincipal (aclsAt p))
    (h : closestWins ctx perm paths aclsAt = true) :
    ChainGrants ctx perm paths aclsAt ∨ RBAC ctx perm := by
  unfold closestWins at h
  split at h
  · rename_i b hb
    subst h
    obtain ⟨p, hp, hv⟩ := List.exists_of_findSome?_eq_some hb
    obtain ⟨acl, hacl, hu, hperm⟩ := (userVerdict_some (hone p hp)).mp hv
    exact Or.inl ⟨p, hp, acl, hacl, Or.inl hu, permits_iff.mpr hperm⟩
  · split at h
    · rename_i b hb
      subst h
      obtain ⟨p, hp, hv⟩ := List.exists_of_findSome?_eq_some hb
      obtain ⟨acl, hacl, hr, hperm⟩ := roleVerdict_true hv
      exact Or.inl ⟨p, hp, acl, hacl, Or.inr hr, permits_iff.mpr hperm⟩
    · exact Or.inr (of_decide_eq_true h)

/-- The first verdict about the user is a denial. -/
theorem findSome_user_false {ctx : AuthContext} {perm : Permission} {paths : List Str}
    {aclsAt : Str → List ACL} (hone : ∀ p ∈ paths, OnePerPrincipal (aclsAt p)) :
    (paths.findSome? fun p => userVerdict ctx perm (aclsAt p)) = some false ↔
      ∃ nearer q farther, paths = nearer ++ q :: farther ∧ UserDenies ctx perm (aclsAt q) ∧
        ∀ k ∈ nearer, ¬ UserMentions ctx perm (aclsAt k) := by
  rw [List.findSome?_eq_some_iff]
  refine exists_congr fun nearer => exists_congr fun q => exists_congr fun farther =>
    and_congr_right fun hpaths => ?_
  rw [userVerdict_some (hone q (by simp [hpaths]))]
  exact and_congr_right fun _ => forall_congr' fun k => forall_congr' fun _ => userVerdict_none

/-- The first verdict about the roles is a denial. -/
theorem findSome_role_false {ctx : AuthContext} {perm : Permission} {paths : List Str}
    {aclsAt : Str → List ACL} :
    (paths.findSome? fun p => roleVerdict ctx perm (aclsAt p)) = some false ↔
      ∃ nearer q farther, paths = nearer ++ q :: farther ∧ RolesDeny ctx perm (aclsAt q) ∧
        ∀ k ∈ nearer, ¬ RoleMentions ctx perm (aclsAt k) := by
  rw [List.findSome?_eq_some_iff]
  refine exists_congr fun nearer => exists_congr fun q => exists_congr fun farther =>
    and_congr_right fun _ => and_congr roleVerdict_false ?_
  exact forall_congr' fun k => forall_congr' fun _ => roleVerdict_none

theorem findSome_user_none {ctx : AuthContext} {perm : Permission} {paths : List Str}
    {aclsAt : Str → List ACL} :
    (paths.findSome? fun p => userVerdict ctx perm (aclsAt p)) = none ↔
      ∀ k ∈ paths, ¬ UserMentions ctx perm (aclsAt k) := by
  rw [List.findSome?_eq_none_iff]
  exact forall_congr' fun k => forall_congr' fun _ => userVerdict_none

/-- The documentation denies although something grants: a denial is overruled. -/
theorem denialOverruled_iff {ctx : AuthContext} {perm : Permission} {paths : List Str}
    {aclsAt : Str → List ACL} (hone : ∀ p ∈ paths, OnePerPrincipal (aclsAt p)) :
    DenialOverruled ctx perm paths aclsAt ↔
      (ChainGrants ctx perm paths aclsAt ∨ RBAC ctx perm) ∧
        closestWins ctx perm paths aclsAt = false := by
  refine and_congr_right fun hgrants => ?_
  have hsplit : (∃ nearer q farther, paths = nearer ++ q :: farther ∧
      ((UserDenies ctx perm (aclsAt q) ∧ ∀ k ∈ nearer, ¬ UserMentions ctx perm (aclsAt k)) ∨
        (RolesDeny ctx perm (aclsAt q) ∧ (∀ k ∈ paths, ¬ UserMentions ctx perm (aclsAt k)) ∧
          ∀ k ∈ nearer, ¬ RoleMentions ctx perm (aclsAt k)))) ↔
      (paths.findSome? fun p => userVerdict ctx perm (aclsAt p)) = some false ∨
        ((paths.findSome? fun p => userVerdict ctx perm (aclsAt p)) = none ∧
          (paths.findSome? fun p => roleVerdict ctx perm (aclsAt p)) = some false) := by
    rw [findSome_user_false hone, findSome_role_false, findSome_user_none]
    constructor
    · rintro ⟨nearer, q, farther, hp, ⟨hd, hn⟩ | ⟨hd, hu, hn⟩⟩
      · exact Or.inl ⟨nearer, q, farther, hp, hd, hn⟩
      · exact Or.inr ⟨hu, nearer, q, farther, hp, hd, hn⟩
    · rintro (⟨nearer, q, farther, hp, hd, hn⟩ | ⟨hu, nearer, q, farther, hp, hd, hn⟩)
      · exact ⟨nearer, q, farther, hp, Or.inl ⟨hd, hn⟩⟩
      · exact ⟨nearer, q, farther, hp, Or.inr ⟨hd, hu, hn⟩⟩
  rw [hsplit]
  unfold closestWins
  cases hu : paths.findSome? fun p => userVerdict ctx perm (aclsAt p) with
  | some b => simp
  | none =>
    cases hr : paths.findSome? fun p => roleVerdict ctx perm (aclsAt p) with
    | some b => simp
    | none =>
      -- nothing on the chain mentions the permission, so the role table grants it
      have hrbac : RBAC ctx perm := by
        refine hgrants.resolve_left fun hchain => ?_
        obtain ⟨p, hp, hmention | hmention⟩ := chainGrants_mentions hchain
        · exact findSome_user_none.mp hu p hp hmention
        · exact roleVerdict_none.mp (List.findSome?_eq_none_iff.mp hr p hp) hmention
      simp [hrbac]

/-- **Only grants decide.** For a store with at most one entry for each path and principal, with
or without a batch query, the decision for a canonical path is to grant exactly if an entry of the
user or of one of the roles on the chain says `true`, or the role table has the permission: an
entry that says `false` counts as none. This is the documented decision exactly when no denial
that comes first is overruled by a grant. -/
theorem canAccess_closestWins_iff (store : ACLStore) (hstore : store.Coherent)
    (hone : ∀ p, OnePerPrincipal (store.getACLs p)) (ctx : AuthContext) (perm : Permission)
    (l : Loc) :
    (∃ granted, canAccess ctx l.path perm store = some granted ∧
      (granted = true ↔
        ChainGrants ctx perm ((ancestors l).map Loc.path) store.getACLs ∨ RBAC ctx perm)) ∧
    (canAccess ctx l.path perm store =
        some (closestWins ctx perm ((ancestors l).map Loc.path) store.getACLs) ↔
      ¬ DenialOverruled ctx perm ((ancestors l).map Loc.path) store.getACLs) := by
  have hone' : ∀ p ∈ (ancestors l).map Loc.path, OnePerPrincipal (store.getACLs p) :=
    fun p _ => hone p
  have hcode : canAccess ctx l.path perm store =
      some (searchChain ctx perm ((ancestors l).map Loc.path) store.getACLs) := by
    rw [canAccess_coherent hstore, canAccess, parentPaths_path]
    rfl
  refine ⟨⟨_, hcode, searchChain_iff ctx perm _ _⟩, ?_⟩
  rw [hcode, Option.some.injEq, denialOverruled_iff hone', ← searchChain_iff]
  cases hc : closestWins ctx perm ((ancestors l).map Loc.path) store.getACLs with
  | false => simp
  | true => simp [(searchChain_iff ctx perm _ _).mpr (grants_of_closestWins hone' hc)]

/-- The single entry at `/a` takes the permission to read away from user 42. -/
def denyRead : ACL :=
  ⟨str "/a", str "user:42", fun perm => if perm = permRead then some false else none⟩

def denyReadStore : ACLStore := ⟨fun p => if p = str "/a" then [denyRead] else [], none⟩

theorem coherent_denyReadStore : denyReadStore.Coherent := by
  rintro batch ⟨⟩

theorem onePerPrincipal_denyReadStore (p : Str) : OnePerPrincipal (denyReadStore.getACLs p) := by
  show OnePerPrincipal (if p = str "/a" then [denyRead] else [])
  unfold OnePerPrincipal
  split <;> simp

/-- The role table overrules the denial: a viewer with an explicit denial at `/a` reads
`/a`, which the documented resolver refuses. -/
theorem viewer_overrules_denyRead :
    denyReadStore.Coherent ∧ (∀ p, OnePerPrincipal (denyReadStore.getACLs p)) ∧
      canAccess ⟨str "42", [str "viewer"]⟩ (Loc.path [⟨str "a", by decide⟩]) permRead
        denyReadStore = some true ∧
      closestWins ⟨str "42", [str "viewer"]⟩ permRead
        ((ancestors [⟨str "a", by decide⟩]).map Loc.path) denyReadStore.getACLs = false :=
  ⟨coherent_denyReadStore, onePerPrincipal_denyReadStore, by decide, by decide⟩

/-- Without a role the denial stands, also in the code. -/
theorem closestWins_denyRead :
    denyReadStore.Coherent ∧ (∀ p, OnePerPrincipal (denyReadStore.getACLs p)) ∧
      canAccess ⟨str "42", []⟩ (Loc.path [⟨str "a", by decide⟩]) permRead denyReadStore =
        some false ∧
      ¬ DenialOverruled ⟨str "42", []⟩ permRead
        ((ancestors [⟨str "a", by decide⟩]).map Loc.path) denyReadStore.getACLs := by
  refine ⟨coherent_denyReadStore, onePerPrincipal_denyReadStore, by decide, ?_⟩
  exact (canAccess_closestWins_iff denyReadStore coherent_denyReadStore
    onePerPrincipal_denyReadStore ⟨str "42", []⟩ permRead [⟨str "a", by decide⟩]).2.mp (by decide)

end FileEngine.Auth
