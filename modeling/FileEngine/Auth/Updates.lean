import FileEngine.Auth.InMemory
import FileEngine.Auth.Postgres
import Mathlib.Data.List.Dedup

/-!
# Repeated `SetACL` calls

Both stores append: a second `SetACL` for the same path and principal stands beside the
first one, and the search of the resolver finds either. `keepOne` is a store with one
entry for each path and principal; how the calls of a pair are combined into that entry
is a parameter. With the union of the permissions it decides as the code does
(`canAccess_accumulates`), with the last call it does not (`revocation_ignored`).
-/

namespace FileEngine.Auth

open Go

/-- The calls for one path and principal, in their order. -/
def callsFor (calls : List ACL) (path principal : Str) : List ACL :=
  calls.filter fun a => a.path = path ∧ a.principalID = principal

/-- One entry for each path and principal that occurs. -/
def keepOne (combine : List ACL → Permission → Option Bool) (calls : List ACL) (path : Str) :
    List ACL :=
  ((calls.filter (·.path = path)).map ACL.principalID).dedup.map fun principal =>
    ⟨path, principal, combine (callsFor calls path principal)⟩

/-- Only the permissions of the last call. -/
def lastSet (acls : List ACL) (perm : Permission) : Option Bool :=
  acls.getLast?.bind fun a => a.permissions perm

/-- The permissions of all calls together: granted if one of them grants. -/
def unionSet (acls : List ACL) (perm : Permission) : Option Bool :=
  if acls.any (·.permits perm) then some true
  else if acls.any fun a => (a.permissions perm).isSome then some false
  else none

theorem unionSet_true {acls : List ACL} {perm : Permission} :
    unionSet acls perm = some true ↔ ∃ a ∈ acls, a.permits perm = true := by
  rw [← List.any_eq_true]
  unfold unionSet
  split
  · rename_i h
    simp [h]
  · rename_i h
    split <;> simp [h]

theorem applies_of_principalID {ctx : AuthContext} {a b : ACL} (h : a.principalID = b.principalID)
    (ha : Applies ctx a) : Applies ctx b := by
  unfold Applies at ha ⊢
  rwa [← h]

/-- At each path the merged entries grant what the calls grant. -/
theorem grants_keepOne_iff (calls : List ACL) (ctx : AuthContext) (perm : Permission) (p : Str) :
    (∃ acl ∈ keepOne unionSet calls p, Applies ctx acl ∧ acl.permits perm = true) ↔
      ∃ acl ∈ calls.filter (·.path = p), Applies ctx acl ∧ acl.permits perm = true := by
  constructor
  · rintro ⟨acl, hacl, happ, hperm⟩
    obtain ⟨principal, _, rfl⟩ := List.mem_map.mp hacl
    obtain ⟨a, ha, haperm⟩ := unionSet_true.mp (permits_iff.mp hperm)
    simp only [callsFor, List.mem_filter, decide_eq_true_eq] at ha
    obtain ⟨hmem, hpath, hprincipal⟩ := ha
    exact ⟨a, List.mem_filter.mpr ⟨hmem, decide_eq_true hpath⟩,
      applies_of_principalID hprincipal.symm happ, haperm⟩
  · rintro ⟨a, ha, happ, hperm⟩
    obtain ⟨hmem, hpath⟩ := List.mem_filter.mp ha
    refine ⟨⟨p, a.principalID, unionSet (callsFor calls p a.principalID)⟩, ?_, ?_, ?_⟩
    · exact List.mem_map.mpr ⟨a.principalID, List.mem_dedup.mpr (List.mem_map_of_mem ha), rfl⟩
    · exact applies_of_principalID rfl happ
    · refine permits_iff.mpr (unionSet_true.mpr ⟨a, ?_, hperm⟩)
      simp only [callsFor, List.mem_filter, decide_eq_true_eq]
      exact ⟨hmem, of_decide_eq_true hpath, trivial⟩

theorem searchChain_keepOne {calls : List ACL} {aclsAt : Str → List ACL}
    (h : ∀ p acl, acl ∈ aclsAt p ↔ acl ∈ calls.filter (·.path = p)) (ctx : AuthContext)
    (perm : Permission) (paths : List Str) :
    searchChain ctx perm paths aclsAt = searchChain ctx perm paths (keepOne unionSet calls) := by
  have hgrants : ChainGrants ctx perm paths aclsAt ↔
      ChainGrants ctx perm paths (keepOne unionSet calls) := by
    refine exists_congr fun p => and_congr_right fun _ => ?_
    rw [grants_keepOne_iff]
    exact exists_congr fun acl => and_congr_left' (h p acl)
  rw [Bool.eq_iff_iff, searchChain_iff, searchChain_iff, hgrants]

/-- The decision over any store that holds the calls. -/
theorem canAccess_keepOne {calls : List ACL} {getACLs : Str → List ACL}
    (h : ∀ p acl, acl ∈ getACLs p ↔ acl ∈ calls.filter (·.path = p)) (ctx : AuthContext)
    (path : Str) (perm : Permission) :
    canAccess ctx path perm ⟨getACLs, none⟩ =
      canAccess ctx path perm ⟨keepOne unionSet calls, none⟩ := by
  have hdecide : ∀ paths, decideOn ctx paths perm ⟨getACLs, none⟩ =
      decideOn ctx paths perm ⟨keepOne unionSet calls, none⟩ :=
    fun paths => searchChain_keepOne h ctx perm paths
  simp only [canAccess, hdecide]

/-- **`SetACL` accumulates.** After any sequence of successful calls, on the in-memory
store and on the table of the Postgres store, every decision is the decision over the
store that keeps for each path and principal the union of the permissions of all calls
for that pair. -/
theorem canAccess_accumulates (calls : List ACL) (ctx : AuthContext) (path : Str)
    (perm : Permission) :
    canAccess ctx path perm (InMemoryACLStore.ofCalls calls).asACLStore =
        canAccess ctx path perm ⟨keepOne unionSet calls, none⟩ ∧
    ∀ (json : Json) (pool : Pool) (table : List Row), PostgresACLStore.RoundTrips json calls →
      PostgresACLStore.insertAll json calls = .ok table →
      PostgresACLStore.FaultFree pool table →
      canAccess ctx path perm (PostgresACLStore.asACLStore json pool) =
        canAccess ctx path perm ⟨keepOne unionSet calls, none⟩ := by
  refine ⟨canAccess_keepOne (fun p acl => ?_) ctx path perm, ?_⟩
  · show acl ∈ (InMemoryACLStore.ofCalls calls).data p ↔ _
    rw [InMemoryACLStore.data_ofCalls]
  · intro json pool table hjson htable hpool
    have hscan := PostgresACLStore.insertAll_scan hjson htable
    rw [← canAccess_keepOne (PostgresACLStore.mem_getACLs hscan hpool)]
    refine canAccess_coherent ?_ ctx path perm
    rintro batch hbatch
    obtain rfl := Option.some.inj hbatch
    exact PostgresACLStore.batchAgrees hscan hpool

/-! ## A right that is taken back -/

/-- User 1 may read `/a`. -/
def grantRead : ACL :=
  ⟨str "/a", str "user:1", fun perm => if perm = permRead then some true else none⟩

/-- A later call that takes every permission back. -/
def revokeAll : ACL := ⟨str "/a", str "user:1", fun _ => none⟩

/-- The second call for the pair does not replace the first one. -/
theorem revocation_ignored :
    canAccess ⟨str "1", []⟩ (str "/a") permRead
        (InMemoryACLStore.ofCalls [grantRead, revokeAll]).asACLStore = some true ∧
      canAccess ⟨str "1", []⟩ (str "/a") permRead
        ⟨keepOne lastSet [grantRead, revokeAll], none⟩ = some false := by
  decide

/-- The encoding of the two permission maps of the example. -/
def readJson : Json where
  marshal perms :=
    if perms permRead = some true then .ok (str "\x7b\"read\":true\x7d") else .ok (str "\x7b\x7d")
  unmarshal b :=
    if b = str "\x7b\"read\":true\x7d" then .ok grantRead.permissions
    else if b = str "\x7b\x7d" then .ok revokeAll.permissions
    else .error (str "invalid character")

/-- The table of the example, and a pool that answers from it. -/
def exampleTable : List Row :=
  [⟨str "/a", str "user:1", str "\x7b\"read\":true\x7d"⟩, ⟨str "/a", str "user:1", str "\x7b\x7d"⟩]

def examplePool : Pool where
  query p := .ok ((exampleTable.filter (·.path = p)).map .ok)
  queryAny ps := .ok ((exampleTable.filter (·.path ∈ ps)).map .ok)

theorem accumulates_readJson :
    PostgresACLStore.insertAll readJson [grantRead, revokeAll] = .ok exampleTable ∧
      canAccess ⟨str "1", []⟩ (str "/a") permRead
          (PostgresACLStore.asACLStore readJson examplePool) =
        canAccess ⟨str "1", []⟩ (str "/a") permRead
          ⟨keepOne unionSet [grantRead, revokeAll], none⟩ := by
  have htable : PostgresACLStore.insertAll readJson [grantRead, revokeAll] = .ok exampleTable := rfl
  refine ⟨htable, (canAccess_accumulates [grantRead, revokeAll] ⟨str "1", []⟩ (str "/a")
    permRead).2 readJson examplePool exampleTable ?_ htable ?_⟩
  · intro acl hacl b hb
    simp only [List.mem_cons, List.not_mem_nil, or_false] at hacl
    rcases hacl with rfl | rfl
    · obtain rfl : str "\x7b\"read\":true\x7d" = b := Except.ok.inj hb
      rfl
    · obtain rfl : str "\x7b\x7d" = b := Except.ok.inj hb
      rfl
  · exact ⟨fun p => ⟨_, rfl, List.Perm.refl _⟩, fun ps => ⟨_, rfl, List.Perm.refl _⟩⟩

end FileEngine.Auth
