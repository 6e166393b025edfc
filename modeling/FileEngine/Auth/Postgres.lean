import FileEngine.Auth.Batch

/-!
# The Postgres store

`internal/auth/postgres_store.go` over the table `acl_entries`. The table is the list of
its rows; `SetACL` is a plain `INSERT`. Two things stand outside the repository and are
parameters:

* `Json`, the encoding of a permission map into the `jsonb` column and back;
* `Pool`, the answers of the connection pool to the two queries. A query can fail as a
  whole, and every row of its result can fail to scan.

`FaultFree` is what a healthy database promises: the rows of the table that match, in
any order.
-/

namespace FileEngine.Auth

open Go

structure Row where
  path : Str
  principalID : Str
  permissions : Str

structure Json where
  marshal : (Permission → Option Bool) → Except Str Str
  unmarshal : Str → Except Str (Permission → Option Bool)

structure Pool where
  query : Str → Except Str (List (Except Str Row))
  queryAny : List Str → Except Str (List (Except Str Row))

namespace PostgresACLStore

/-- `SetACL`; `exec` is the error of the `INSERT`, if there is one. -/
def setACL (json : Json) (exec : Option Str) (table : List Row) (acl : ACL) :
    Except Str (List Row) :=
  match json.marshal acl.permissions with
  | .error e => .error (str "marshal permissions: " ++ e)
  | .ok b =>
      match exec with
      | some e => .error (str "insert acl: " ++ e)
      | none => .ok (table ++ [⟨acl.path, acl.principalID, b⟩])

/-- One round of the loop over the rows: a row that fails to scan is skipped, and
permissions that fail to decode count as none. -/
def scanRow (json : Json) : Except Str Row → Option ACL
  | .error _ => none
  | .ok row =>
      some ⟨row.path, row.principalID,
        match json.unmarshal row.permissions with
        | .ok perms => perms
        | .error _ => fun _ => none⟩

def getACLs (json : Json) (pool : Pool) (path : Str) : List ACL :=
  match pool.query path with
  | .error _ => []
  | .ok rows => rows.filterMap (scanRow json)

def getACLsForPaths (json : Json) (pool : Pool) (paths : List Str) : Except Str (List ACL) :=
  if paths.length = 0 then .ok []
  else
    match pool.queryAny paths with
    | .error e => .error (str "query acls: " ++ e)
    | .ok rows => .ok (rows.filterMap (scanRow json))

def asACLStore (json : Json) (pool : Pool) : ACLStore :=
  ⟨getACLs json pool, some (getACLsForPaths json pool)⟩

/-- The table after a sequence of calls that all succeed. -/
def insertAll (json : Json) (calls : List ACL) : Except Str (List Row) :=
  calls.foldlM (setACL json none) []

/-- Every query returns the matching rows, in some order, and every row scans. -/
structure FaultFree (pool : Pool) (table : List Row) : Prop where
  query : ∀ p, ∃ rows : List Row, pool.query p = .ok (rows.map .ok) ∧
    rows.Perm (table.filter (·.path = p))
  queryAny : ∀ ps, ∃ rows : List Row, pool.queryAny ps = .ok (rows.map .ok) ∧
    rows.Perm (table.filter (·.path ∈ ps))

/-- The permission maps of these calls survive encoding and decoding. -/
def RoundTrips (json : Json) (calls : List ACL) : Prop :=
  ∀ acl ∈ calls, ∀ b, json.marshal acl.permissions = .ok b →
    json.unmarshal b = .ok acl.permissions

/-! ## What is read back -/

theorem setACL_ok {json : Json} {table table' : List Row} {acl : ACL}
    (h : setACL json none table acl = .ok table') :
    ∃ b, json.marshal acl.permissions = .ok b ∧
      table' = table ++ [⟨acl.path, acl.principalID, b⟩] := by
  unfold setACL at h
  split at h
  · cases h
  · rename_i b hb
    exact ⟨b, hb, (Except.ok.inj h).symm⟩

/-- The rows are the calls, in their order. -/
theorem insertAll_scan {json : Json} {calls : List ACL} (hjson : RoundTrips json calls)
    {table : List Row} (h : insertAll json calls = .ok table) :
    table.map (fun row => scanRow json (.ok row)) = calls.map some := by
  induction calls using List.reverseRecOn generalizing table with
  | nil =>
    cases h
    rfl
  | append_singleton calls acl ih =>
    unfold insertAll at h
    rw [List.foldlM_append] at h
    cases hinit : calls.foldlM (setACL json none) [] with
    | error e =>
      rw [hinit] at h
      cases h
    | ok before =>
      rw [hinit] at h
      have hstep : setACL json none before acl = .ok table := by
        cases hset : setACL json none before acl with
        | error e => simp [bind, Except.bind, hset] at h
        | ok after => simpa [bind, Except.bind, pure, Except.pure, hset] using h
      obtain ⟨b, hb, rfl⟩ := setACL_ok hstep
      have hbefore := ih (fun a ha => hjson a (List.mem_append_left _ ha)) hinit
      have hdecode := hjson acl (by simp) b hb
      rw [List.map_append, List.map_append, hbefore]
      simp [scanRow, hdecode]

theorem filterMap_scan {json : Json} {calls : List ACL} {table : List Row}
    (h : table.map (fun row => scanRow json (.ok row)) = calls.map some) (sel : Str → Bool) :
    ((table.filter fun row => sel row.path).map Except.ok).filterMap (scanRow json) =
      calls.filter fun a => sel a.path := by
  induction table generalizing calls with
  | nil =>
    obtain rfl : calls = [] := by simpa using h.symm
    rfl
  | cons row table ih =>
    cases calls with
    | nil => simp at h
    | cons a calls =>
      simp only [List.map_cons, List.cons.injEq] at h
      have hpath : row.path = a.path := by
        have := h.1
        simp only [scanRow, Option.some.injEq] at this
        rw [← this]
      have hrest := ih h.2
      by_cases hsel : sel a.path = true
      · simp only [List.filter_cons, hpath, hsel, if_true, List.map_cons, List.filterMap_cons,
          h.1, hrest]
      · simp only [List.filter_cons, hpath, hsel, if_false, hrest, Bool.false_eq_true]

theorem mem_getACLs {json : Json} {calls : List ACL} {table : List Row} {pool : Pool}
    (hscan : table.map (fun row => scanRow json (.ok row)) = calls.map some)
    (hpool : FaultFree pool table) (p : Str) (acl : ACL) :
    acl ∈ getACLs json pool p ↔ acl ∈ calls.filter (·.path = p) := by
  obtain ⟨rows, hrows, hperm⟩ := hpool.query p
  rw [← filterMap_scan hscan fun q => decide (q = p)]
  simp only [getACLs, hrows]
  exact ((hperm.map _).filterMap _).mem_iff

theorem batchAgrees {json : Json} {calls : List ACL} {table : List Row} {pool : Pool}
    (hscan : table.map (fun row => scanRow json (.ok row)) = calls.map some)
    (hpool : FaultFree pool table) :
    BatchAgrees (getACLs json pool) (getACLsForPaths json pool) := by
  intro paths acls hok p hp acl
  have hne : ¬ paths.length = 0 := by
    intro h0
    simp [List.length_eq_zero_iff.mp h0] at hp
  obtain ⟨rows, hrows, hperm⟩ := hpool.queryAny paths
  simp only [getACLsForPaths, hne, if_false, hrows, Except.ok.injEq] at hok
  have hmem : acl ∈ acls ↔ acl ∈ calls.filter (·.path ∈ paths) := by
    rw [← filterMap_scan hscan fun q => decide (q ∈ paths), ← hok]
    exact ((hperm.map _).filterMap _).mem_iff
  rw [mem_getACLs hscan hpool, List.mem_filter, List.mem_filter, hmem, List.mem_filter]
  simp only [decide_eq_true_eq]
  exact ⟨fun h => ⟨h.1.1, h.2⟩, fun h => ⟨⟨h.1, h.2 ▸ hp⟩, h.2⟩⟩

end PostgresACLStore

end FileEngine.Auth
