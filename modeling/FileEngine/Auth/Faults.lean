import FileEngine.Auth.Updates

/-!
# Database faults

Every error of `PostgresACLStore` is swallowed somewhere: a failed batch query makes
`CanAccess` ask path by path, a failed query for one path counts as no entries, a row that
fails to scan is skipped, permissions that fail to decode count as none, and an iteration
that stops early is not noticed. `Faulty` is the pool under any pattern of these faults.

What is then read is a part of what a healthy pool returns, up to entries without
permissions, and the search of the resolver only looks for entries that grant.
-/

namespace FileEngine.Auth

open Go

namespace PostgresACLStore

/-- What the iteration can show of one row of the table. -/
inductive RowFault (json : Json) (row : Row) : Except Str Row → Prop
  | healthy : RowFault json row (.ok row)
  | scan (e : Str) : RowFault json row (.error e)
  | decode (raw e : Str) : json.unmarshal raw = .error e →
      RowFault json row (.ok ⟨row.path, row.principalID, raw⟩)

/-- An answer to a query whose result is `rows`: if the query did not fail, then the
iteration went, in some order, over the first of these rows. -/
def FaultyAnswer (json : Json) (rows : List Row) (answer : Except Str (List (Except Str Row))) :
    Prop :=
  ∀ shown, answer = .ok shown →
    ∃ order seen : List Row, order.Perm rows ∧ seen <+: order ∧
      List.Forall₂ (RowFault json) seen shown

structure Faulty (json : Json) (pool : Pool) (table : List Row) : Prop where
  query : ∀ p, FaultyAnswer json (table.filter (·.path = p)) (pool.query p)
  queryAny : ∀ ps, FaultyAnswer json (table.filter (·.path ∈ ps)) (pool.queryAny ps)

/-- The entry of a row that scans. -/
def entryOf (json : Json) (row : Row) : ACL :=
  ⟨row.path, row.principalID,
    match json.unmarshal row.permissions with
    | .ok perms => perms
    | .error _ => fun _ => none⟩

theorem scan_entryOf (json : Json) (table : List Row) :
    table.map (fun row => scanRow json (.ok row)) = (table.map (entryOf json)).map some := by
  rw [List.map_map]
  rfl

/-- An entry that grants comes from a row that was shown as it is. -/
theorem RowFault.granting {json : Json} {row : Row} {shown : Except Str Row} {acl : ACL}
    {perm : Permission} (h : RowFault json row shown) (hacl : scanRow json shown = some acl)
    (hperm : acl.permits perm = true) : acl = entryOf json row := by
  cases h with
  | healthy => exact (Option.some.inj hacl).symm
  | scan e => cases hacl
  | decode raw e hraw =>
    have hnone : acl = ⟨row.path, row.principalID, fun _ => none⟩ := by
      simpa [scanRow, hraw] using hacl.symm
    rw [hnone] at hperm
    cases hperm

theorem granting_of_forall₂ {json : Json} {seen : List Row} {shown : List (Except Str Row)}
    {acl : ACL} {perm : Permission} (h : List.Forall₂ (RowFault json) seen shown)
    (hacl : acl ∈ shown.filterMap (scanRow json)) (hperm : acl.permits perm = true) :
    ∃ row ∈ seen, acl = entryOf json row := by
  induction h with
  | nil => cases hacl
  | @cons row answer seen shown hrow _ ih =>
    obtain ⟨shown', hshown', hscan⟩ := List.mem_filterMap.mp hacl
    rcases List.mem_cons.mp hshown' with rfl | hrest
    · exact ⟨row, List.mem_cons_self, hrow.granting hscan hperm⟩
    · obtain ⟨row', hrow', heq⟩ := ih (List.mem_filterMap.mpr ⟨shown', hrest, hscan⟩)
      exact ⟨row', List.mem_cons_of_mem _ hrow', heq⟩

/-- Under any faults, an entry that grants is an entry of the table. -/
theorem FaultyAnswer.granting {json : Json} {rows : List Row}
    {answer : Except Str (List (Except Str Row))} (h : FaultyAnswer json rows answer)
    {shown : List (Except Str Row)} (hshown : answer = .ok shown) {acl : ACL}
    {perm : Permission} (hacl : acl ∈ shown.filterMap (scanRow json))
    (hperm : acl.permits perm = true) : ∃ row ∈ rows, acl = entryOf json row := by
  obtain ⟨order, seen, horder, hseen, hrows⟩ := h shown hshown
  obtain ⟨row, hrow, heq⟩ := granting_of_forall₂ hrows hacl hperm
  exact ⟨row, horder.mem_iff.mp (hseen.subset hrow), heq⟩

theorem granting_getACLs {json : Json} {pool : Pool} {table : List Row}
    (hpool : Faulty json pool table) {p : Str} {acl : ACL} {perm : Permission}
    (hacl : acl ∈ getACLs json pool p) (hperm : acl.permits perm = true) :
    acl ∈ (table.map (entryOf json)).filter (·.path = p) := by
  unfold getACLs at hacl
  split at hacl
  · cases hacl
  · rename_i shown hshown
    obtain ⟨row, hrow, rfl⟩ := (hpool.query p).granting hshown hacl hperm
    obtain ⟨hmem, hpath⟩ := List.mem_filter.mp hrow
    exact List.mem_filter.mpr ⟨List.mem_map_of_mem hmem, hpath⟩

theorem granting_getACLsForPaths {json : Json} {pool : Pool} {table : List Row}
    (hpool : Faulty json pool table) {ps : List Str} {acls : List ACL}
    (hacls : getACLsForPaths json pool ps = .ok acls) {acl : ACL} {perm : Permission}
    (hacl : acl ∈ acls) (hperm : acl.permits perm = true) :
    acl ∈ table.map (entryOf json) := by
  unfold getACLsForPaths at hacls
  split at hacls
  · obtain rfl := Except.ok.inj hacls
    cases hacl
  · split at hacls
    · cases hacls
    · rename_i shown hshown
      obtain rfl := Except.ok.inj hacls
      obtain ⟨row, hrow, rfl⟩ := (hpool.queryAny ps).granting hshown hacl hperm
      exact List.mem_map_of_mem (List.mem_filter.mp hrow).1

/-- Whichever of the two searches the faults let run, it finds no grant that the table
does not hold. -/
theorem decideOn_faulty {json : Json} {pool : Pool} {table : List Row}
    (hpool : Faulty json pool table) {ctx : AuthContext} {paths : List Str} {perm : Permission}
    (h : decideOn ctx paths perm (asACLStore json pool) = true) :
    searchChain ctx perm paths (fun p => (table.map (entryOf json)).filter (·.path = p)) =
      true := by
  have hsingle : searchChain ctx perm paths (getACLs json pool) = true →
      searchChain ctx perm paths
        (fun p => (table.map (entryOf json)).filter (·.path = p)) = true := by
    apply searchChain_mono
    intro p _ acl hacl hperm
    exact granting_getACLs hpool hacl hperm
  cases hbatch : getACLsForPaths json pool paths with
  | error e =>
    simp only [decideOn, asACLStore, hbatch] at h
    exact hsingle h
  | ok acls =>
    simp only [decideOn, asACLStore, hbatch] at h
    refine searchChain_mono ?_ h
    intro p _ acl hacl hperm
    rw [groupByPath_eq] at hacl
    obtain ⟨hmem, hpath⟩ := List.mem_filter.mp hacl
    exact List.mem_filter.mpr ⟨granting_getACLsForPaths hpool hbatch hmem hperm, hpath⟩

/-- The decision of a healthy pool is the search over the entries of the table. -/
theorem canAccess_faultFree {json : Json} {pool : Pool} {table : List Row}
    (hpool : FaultFree pool table) (ctx : AuthContext) (path : Str) (perm : Permission) :
    canAccess ctx path perm (asACLStore json pool) =
      (parentPaths path).map fun paths =>
        searchChain ctx perm paths fun p => (table.map (entryOf json)).filter (·.path = p) := by
  have hscan := scan_entryOf json table
  have hcoherent : (asACLStore json pool).Coherent := by
    intro batch hbatch
    obtain rfl := Option.some.inj hbatch
    exact batchAgrees hscan hpool
  rw [canAccess_coherent hcoherent]
  have hsearch : ∀ paths, searchChain ctx perm paths (getACLs json pool) =
      searchChain ctx perm paths fun p => (table.map (entryOf json)).filter (·.path = p) :=
    fun paths => searchChain_congr ctx perm fun p _ acl => mem_getACLs hscan hpool p acl
  simp only [canAccess, decideOn, asACLStore, hsearch]

/-- **Database faults fail closed.** Whatever the table holds and whatever fails during the
call, a request that is let through would be let through by the healthy database. -/
theorem canAccess_failsClosed {json : Json} {table : List Row} {pool healthy : Pool}
    (hpool : Faulty json pool table) (hhealthy : FaultFree healthy table) (ctx : AuthContext)
    (path : Str) (perm : Permission)
    (h : canAccess ctx path perm (asACLStore json pool) = some true) :
    canAccess ctx path perm (asACLStore json healthy) = some true := by
  rw [canAccess_faultFree hhealthy]
  obtain ⟨paths, hpaths, hdecide⟩ := Option.map_eq_some_iff.mp h
  rw [hpaths, Option.map_some, decideOn_faulty hpool hdecide]

/-- The batch query fails, and of the two rows at `/a` the first one is shown and the
second one does not scan. -/
def limpingPool : Pool where
  query p :=
    if p = str "/a" then .ok ((exampleTable.take 1).map .ok ++ [.error (str "scan")])
    else .error (str "timeout")
  queryAny _ := .error (str "timeout")

theorem failsClosed_limpingPool :
    canAccess ⟨str "1", []⟩ (str "/a/b") permRead (asACLStore readJson limpingPool) = some true ∧
      canAccess ⟨str "1", []⟩ (str "/a/b") permRead (asACLStore readJson examplePool) =
        some true := by
  have htrue : canAccess ⟨str "1", []⟩ (str "/a/b") permRead
      (asACLStore readJson limpingPool) = some true := by
    decide
  have hlimping : Faulty readJson limpingPool exampleTable := by
    refine ⟨fun p => ?_, fun ps shown hshown => ?_⟩
    · intro shown hshown
      simp only [limpingPool] at hshown
      split at hshown
      · rename_i hp
        subst hp
        obtain rfl := Except.ok.inj hshown
        exact ⟨exampleTable, exampleTable, List.Perm.refl _, List.prefix_refl _,
          .cons .healthy (.cons (.scan _) .nil)⟩
      · cases hshown
    · cases hshown
  have hhealthy : FaultFree examplePool exampleTable :=
    ⟨fun p => ⟨_, rfl, List.Perm.refl _⟩, fun ps => ⟨_, rfl, List.Perm.refl _⟩⟩
  exact ⟨htrue, canAccess_failsClosed hlimping hhealthy _ _ _ htrue⟩

end PostgresACLStore

end FileEngine.Auth
