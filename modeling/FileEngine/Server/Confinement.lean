import FileEngine.Auth.InMemory
import FileEngine.Server.Interceptors
import FileEngine.Storage.Local
import FileEngine.Storage.ObjectKeys

/-!
# Grants and the places they reach

The interceptors check a request on the normalized path, the backends act on the path
as it came: the local backend cleans it, the object backends use it as a key. A request
is `Confined` if every grant that admits it covers the place that the backend acts on.

Over stores with canonical entries, an admitted request without a grant by role is
granted by an entry above `checkedLoc`, and any such entry can be the only one. So a
request is confined exactly if all locations above `checkedLoc` cover the place
(`confined_iff`). For the local backend that is `checkedLoc` being on the way to the
location of the path, which fails for a trailing `..` and for white space that
`normalize` trims; for the object backends the names of `checkedLoc` must be the first
components of the key.
-/

namespace FileEngine.Server

open Go Auth Authz Local ObjectStore

/-! ## Admission -/

/-- The method of a request, the path that the backend is given for it, and the
permission it needs. -/
structure Target where
  fullMethod : Str
  path : Str
  perm : Permission

def target : Request → Option Target
  | .createFolder parentPath folderName _ =>
      some ⟨methodCreateFolder, folderPath parentPath folderName, permWrite⟩
  | .listObjects listPrefix => some ⟨methodListObjects, listPrefix, permList⟩
  | .uploadObject path _ => some ⟨methodUploadObject, path, permWrite⟩
  | .downloadObject path => some ⟨methodDownloadObject, path, permRead⟩
  | _ => none

/-- The authorization interceptor lets the request through to its handler: the unary
one for all requests but downloads, and the wrapped stream for downloads. -/
def Admitted (store : ACLStore) (a : AuthContext) (fullMethod : Str) : Request → Prop
  | .downloadObject path =>
      ∃ s, Ends (grpcAuthZStreamInterceptor Request.downloadObject store fullMethod
        ⟨none, some a⟩ recvMsg fun _ recvMsg => recvMsg)
        (⟨(), [.ok path], false, []⟩ : StreamState Unit Str) (.ok path) s
  | req => Ends (grpcAuthZInterceptor store fullMethod ⟨none, some a⟩ req fun _ => pure ())
      () (.ok ()) ()

theorem target_spec {req : Request} {tg : Target} (h : target req = some tg) :
    methodPermission.lookup tg.fullMethod = some tg.perm ∧
      extractPath req = .ok (normalize tg.path) := by
  cases req <;> simp only [target, Option.some.injEq, reduceCtorEq] at h <;> subst h
  case createFolder => exact ⟨lookup_createFolder, rfl⟩
  case listObjects => exact ⟨lookup_listObjects, rfl⟩
  case uploadObject => exact ⟨lookup_uploadObject, rfl⟩
  case downloadObject => exact ⟨lookup_downloadObject, rfl⟩

theorem admitted_iff {req : Request} {tg : Target} (h : target req = some tg) (store : ACLStore)
    (a : AuthContext) : Admitted store a tg.fullMethod req ↔
      canAccess a (normalize tg.path) tg.perm store = some true := by
  obtain ⟨hperm, hpath⟩ := target_spec h
  have hcan := canAccess_rooted (isAbs_normalize tg.path) a tg.perm store
  generalize decideOn a (chain (normalize tg.path)) tg.perm store = b at hcan
  have hunary : Ends (grpcAuthZInterceptor store tg.fullMethod ⟨none, some a⟩ req
      fun _ => pure ()) () (if b then .ok () else .error accessDenied) () := by
    simp only [grpcAuthZInterceptor, hperm, fromContext]
    cases b with
    | false => exact ends_bind_error (checkAccess_ends hpath hcan ()) _
    | true => exact ends_bind_ok (checkAccess_ends hpath hcan ()) (ends_pure () ())
  rw [hcan, Option.some.injEq]
  cases req <;> simp only [target, Option.some.injEq, reduceCtorEq] at h <;> subst h
  case downloadObject path =>
    have hstream : Ends (grpcAuthZStreamInterceptor Request.downloadObject store
        methodDownloadObject ⟨none, some a⟩ recvMsg fun _ recvMsg => recvMsg)
        ⟨(), [.ok path], false, []⟩ (if b then .ok path else .error accessDenied)
        ⟨(), [], true, []⟩ :=
      grpcAuthZStreamInterceptor_mapped hperm rfl (checkedRecvMsg_ends hpath hcan () [] [])
    exact hstream.ok_iff
  all_goals
    rw [← hunary.ok_iff]
    exact ⟨fun hend => ⟨(), hend⟩, fun ⟨_, hend⟩ => hend⟩

/-! ## Confined requests -/

/-- Whenever the request is admitted over a store with canonical entries, and no role of
the caller has the permission by default, some entry for the caller grants it at a path
that covers the place. -/
def Confined (req : Request) (tg : Target) (Covers : Str → Prop) : Prop :=
  ∀ calls : List ACL, (∀ acl ∈ calls, Canonical acl.path) → ∀ ctx : AuthContext,
    Admitted (InMemoryACLStore.ofCalls calls).asACLStore ctx tg.fullMethod req →
    ¬ RBAC ctx tg.perm →
    ∃ acl ∈ calls, Applies ctx acl ∧ acl.permissions tg.perm = some true ∧ Covers acl.path

theorem confined_iff {req : Request} {tg : Target} (h : target req = some tg)
    (Covers : Str → Prop) :
    Confined req tg Covers ↔ ∀ k : Loc, k <+: checkedLoc tg.path → Covers k.path := by
  constructor
  · intro hconf k hk
    -- the entry at `k` alone admits the request
    have hadmit := (admitted_iff h (onlyAt k.path []).asACLStore ⟨[], []⟩).mpr (by
      rw [canAccess_onlyAt (isAbs_normalize tg.path), Option.some.injEq, decide_eq_true_eq]
      exact (mem_chain_normalize tg.path k).mpr hk)
    obtain ⟨acl, hacl, _, _, hcovers⟩ := hconf _ (fun acl hacl => by
      rw [List.mem_singleton.mp hacl]
      exact ⟨k, rfl⟩) ⟨[], []⟩ hadmit (by simp [RBAC])
    rwa [List.mem_singleton.mp hacl] at hcovers
  · intro hall calls hcanon ctx hadmit hrbac
    have hcan := (admitted_iff h _ ctx).mp hadmit
    rw [canAccess_rooted_iff (isAbs_normalize tg.path)] at hcan
    obtain ⟨q, hq, acl, hacl, happ, hperm⟩ := hcan.resolve_right hrbac
    rw [InMemoryACLStore.data_ofCalls, List.mem_filter, decide_eq_true_eq] at hacl
    obtain ⟨hmem, rfl⟩ := hacl
    obtain ⟨k, hk⟩ := hcanon acl hmem
    refine ⟨acl, hmem, happ, permits_iff.mp hperm, ?_⟩
    rw [hk] at hq ⊢
    exact hall k ((mem_chain_normalize tg.path k).mp hq)

/-! ## The local backend -/

theorem full_path (s : LocalStorage) (k : Loc) : s.full k.path = join [s.base, k.path] := by
  show join [s.base, clean (slash :: k.path)] = _
  rw [clean_slash, locate_path]

/-- **Grants on local storage.** A request is confined to the subtrees of the grants that
admit it exactly if the location up to which the check looks for entries is on the way
to the location that the backend acts on. -/
theorem local_confined_iff (s : LocalStorage) {req : Request} {tg : Target}
    (h : target req = some tg) :
    Confined req tg (fun q => AtOrBeneath (s.full q) (s.full tg.path)) ↔
      checkedLoc tg.path <+: locate tg.path := by
  have hcovers : ∀ k : Loc, AtOrBeneath (s.full k.path) (s.full tg.path) ↔ k <+: locate tg.path := by
    intro k
    rw [full_path, ← atOrBeneath_join s.base, LocalStorage.full]
    show AtOrBeneath _ (join [s.base, clean (slash :: tg.path)]) ↔ _
    rw [clean_slash]
  rw [confined_iff h]
  simp only [hcovers]
  exact ⟨fun hall => hall _ List.prefix_rfl, fun hpre k hk => hk.trans hpre⟩

/-- For a path without white space at its ends, the only way out is a last component
`..` behind a location other than the root. -/
theorem checkedLoc_prefix_iff {p : Str} (h : trimSpace p = p) :
    checkedLoc p <+: locate p ↔
      ¬ ((comps p).getLast? = some dotdot ∧ resolve (comps p).dropLast ≠ []) := by
  obtain ⟨cs, d, hcs⟩ := exists_comps_concat p
  rw [checkedLoc, h, reach, locate, hcs, List.dropLast_concat, List.getLast?_concat,
    resolve_concat]
  split
  · rename_i hdots
    refine iff_of_true List.prefix_rfl fun hlast => ?_
    exact (hdots d (by simp)).2 (Option.some.inj hlast.1)
  · by_cases hdd : d = dotdot
    · -- one step up from the location that was checked
      subst hdd
      rw [Loc.enter_dotdot]
      rcases List.eq_nil_or_concat' (resolve cs) with hroot | ⟨l, n, hl⟩
      · simp [hroot]
      · rw [hl, List.dropLast_concat]
        refine iff_of_false (fun hpre => ?_) fun hnot => hnot ⟨rfl, by simp⟩
        have := hpre.length_le
        rw [List.length_append, List.length_singleton] at this
        omega
    · refine iff_of_true ?_ fun hlast => hdd (Option.some.inj hlast.1)
      unfold Loc.enter
      rw [if_neg hdd]
      split
      · exact List.prefix_append _ _
      · exact List.prefix_rfl

/-- A grant on `/a/b` lets its holder list `/a`. -/
theorem parent_of_grant_listed :
    Admitted (onlyAt (str "/a/b") (str "7")).asACLStore ⟨str "7", []⟩ methodListObjects
        (.listObjects (str "/a/b/..")) ∧
      ¬ RBAC ⟨str "7", []⟩ permList ∧
      LocalStorage.full ⟨str "/srv"⟩ (str "/a/b/..") = str "/srv/a" ∧
      ¬ AtOrBeneath (LocalStorage.full ⟨str "/srv"⟩ (str "/a/b")) (str "/srv/a") := by
  have hnorm : normalize (str "/a/b/..") = str "/a/b/.." := by rw [normalize_eq]; decide
  have htarget : target (.listObjects (str "/a/b/..")) =
      some ⟨methodListObjects, str "/a/b/..", permList⟩ := rfl
  refine ⟨(admitted_iff htarget _ _).mpr ?_, by decide, by decide, by unfold AtOrBeneath; decide⟩
  rw [hnorm, canAccess_onlyAt (by decide)]
  decide

theorem local_confined_dots :
    Confined (.uploadObject (str "/a/../b/./c") []) ⟨methodUploadObject, str "/a/../b/./c", permWrite⟩
      (fun q => AtOrBeneath (LocalStorage.full ⟨str "/srv"⟩ q)
        (LocalStorage.full ⟨str "/srv"⟩ (str "/a/../b/./c"))) :=
  (local_confined_iff ⟨str "/srv"⟩ rfl).mpr (by decide)

/-! ## The object backends -/

/-- The key, or for a listing the key prefix, that an object backend addresses. -/
def addressed (key listKey : Str → Str) : Request → Option Str
  | .listObjects listPrefix => some (listKey listPrefix)
  | .uploadObject path _ => some (key path)
  | .downloadObject path => some (key path)
  | _ => none

/-- The part of it that comes from the path. -/
def addressedPath : Request → Str
  | .listObjects listPrefix => listKeyPath listPrefix
  | .uploadObject path _ => keyPath path
  | .downloadObject path => keyPath path
  | _ => []

theorem object_confined {ns : Str} {req : Request} {tg : Target} {x : Str}
    (h : target req = some tg) (hx : addressed (keyIn ns) (listKeyIn ns) req = some x) :
    Confined req tg (KeyCovers (keyIn ns) x) ↔
      (checkedLoc tg.path).map Name.val <+: comps (addressedPath req) := by
  have hcovers : ∀ k : Loc, KeyCovers (keyIn ns) x k.path ↔
      k.map Name.val <+: comps (addressedPath req) := by
    intro k
    cases req <;> simp only [addressed, Option.some.injEq, reduceCtorEq] at hx <;> subst hx <;>
      simp only [addressedPath, keyIn_eq, listKeyIn_eq, keyCovers_iff, prefix_comps_withSlash]
  rw [confined_iff h]
  simp only [hcovers]
  exact ⟨fun hall => hall _ List.prefix_rfl, fun hpre k hk => (hk.map Name.val).trans hpre⟩

/-- **Grants on object storage.** Under any namespace, a request is confined to the keys
of the grants that admit it exactly if the names of the location up to which the check
looks for entries are the first components of the key, as they stand in the path. -/
theorem object_confined_iff (s : S3Storage) (g : GCSStorage) {req : Request} {tg : Target}
    (h : target req = some tg) :
    (∀ x, addressed s.key s.listKey req = some x → (Confined req tg (KeyCovers s.key x) ↔
      (checkedLoc tg.path).map Name.val <+: comps (addressedPath req))) ∧
    ∀ x, addressed g.key g.listKey req = some x → (Confined req tg (KeyCovers g.key x) ↔
      (checkedLoc tg.path).map Name.val <+: comps (addressedPath req)) :=
  ⟨fun _ hx => object_confined h hx, fun _ hx => object_confined h hx⟩

/-- A grant on `/a` lets its holder write the object `/a/b`, which is not one of `a/`. -/
theorem key_beside_grant_written :
    Admitted (onlyAt (str "/a") (str "7")).asACLStore ⟨str "7", []⟩ methodUploadObject
        (.uploadObject (str "//a/b") []) ∧
      ¬ RBAC ⟨str "7", []⟩ permWrite ∧
      S3Storage.key ⟨str "bucket", []⟩ (str "//a/b") = str "/a/b" ∧
      ¬ KeyCovers (S3Storage.key ⟨str "bucket", []⟩) (str "/a/b") (str "/a") := by
  have hnorm : normalize (str "//a/b") = str "/a/b" := by rw [normalize_eq]; decide
  have htarget : target (.uploadObject (str "//a/b") []) =
      some ⟨methodUploadObject, str "//a/b", permWrite⟩ := rfl
  refine ⟨(admitted_iff htarget _ _).mpr ?_, by decide, by decide, by unfold KeyCovers; decide⟩
  rw [hnorm, canAccess_onlyAt (by decide)]
  decide

theorem object_confined_plain :
    Confined (.downloadObject (str "/a/b")) ⟨methodDownloadObject, str "/a/b", permRead⟩
      (KeyCovers (S3Storage.key ⟨str "bucket", str "ns"⟩) (str "ns/a/b")) :=
  ((object_confined_iff ⟨str "bucket", str "ns"⟩ ⟨str "bucket", str "ns"⟩ rfl).1 (str "ns/a/b")
    (by decide)).mpr (by decide)

end FileEngine.Server
