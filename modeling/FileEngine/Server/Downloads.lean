import FileEngine.Auth.InMemory
import FileEngine.Server.Mediation

/-!
# The two download entry points

`DownloadObject` checks the normalized path, `handleDownload` the path as it came. Two
things follow from the difference.

* `authorization_terminates_iff`: the walk to the root ends exactly on rooted paths.
  Every path that the interceptors check is rooted; the HTTP handler goes into an
  endless loop on any other path.
* `decisions_agree_iff`: on the paths on which the HTTP check ends, the two entry points
  decide alike for all callers and stores exactly if `normalize` leaves the path as it
  is, which is if it has no repeated separators and no white space at its ends.
-/

namespace FileEngine.Server

open Go Auth Authz Queue

/-! ## Termination -/

theorem canAccess_isSome_iff (ctx : AuthContext) (path : Str) (perm : Permission)
    (store : ACLStore) : (canAccess ctx path perm store).isSome = true ↔ isAbs path = true := by
  by_cases h : isAbs path = true
  · simp [canAccess_rooted h, h]
  · have hnone : parentPaths path = none := parentPathsLoop_relative h _
    simp [canAccess, hnone, h]

section

variable {σ : Type}

/-- With an identity and a path, the handler ends exactly if the resolver does. -/
theorem handleDownload_isSome {srv : Config σ} {authorization : List Str} {a : AuthContext}
    (query : List Str)
    (hparse : parseAuthContext srv.lib srv.verifier (getFirst authorization) = .ok a)
    (hpath : getFirst query ≠ []) (w : World σ) :
    (handleDownload srv authorization query w).isSome =
      (canAccess a (getFirst query) permRead w.acl).isSome := by
  rw [handleDownload_eq hparse hpath, Option.isSome_map]

/-- **Where authorization terminates.** The walk and the resolver end on a path exactly
if it starts with `/`. So they do on every extracted path, and the HTTP download of a
non-empty path by an authenticated caller ends exactly for such paths. -/
theorem authorization_terminates_iff (path : Str) :
    (LoopTerminates parentPathsRound (path, []) ↔ isAbs path = true) ∧
    (∀ ctx perm store, (canAccess ctx path perm store).isSome = true ↔ isAbs path = true) ∧
    (∀ req, extractPath req = .ok path → LoopTerminates parentPathsRound (path, []) ∧
      ∀ ctx perm store, (canAccess ctx path perm store).isSome = true) ∧
    ∀ (srv : Config σ) (authorization : List Str) (a : AuthContext) (w : World σ),
      parseAuthContext srv.lib srv.verifier (getFirst authorization) = .ok a → path ≠ [] →
      ((handleDownload srv authorization [path] w).isSome = true ↔ isAbs path = true) := by
  refine ⟨parentPaths_terminates_iff path,
    fun ctx perm store => canAccess_isSome_iff ctx path perm store, ?_, ?_⟩
  · intro req hreq
    have habs := isAbs_extractPath hreq
    exact ⟨(parentPaths_terminates_iff path).mpr habs,
      fun ctx perm store => (canAccess_isSome_iff ctx path perm store).mpr habs⟩
  · intro srv authorization a w hparse hpath
    have hhandler := handleDownload_isSome [path] hparse hpath w
    rw [hhandler]
    exact canAccess_isSome_iff a path permRead w.acl

end

/-- `path=a` keeps the HTTP handler in the walk for ever. -/
theorem relative_download_diverges :
    ¬ LoopTerminates parentPathsRound (str "a", []) ∧
      handleDownload demo [str "7"] [str "a"] ⟨noACLs, [], ⟨[], fun _ => none⟩⟩ = none := by
  refine ⟨fun h => ?_, ?_⟩
  · exact absurd ((parentPaths_terminates_iff (str "a")).mp h) (by decide)
  · have hparse : parseAuthContext demo.lib demo.verifier (getFirst [str "7"]) =
        .ok ⟨str "7", []⟩ := rfl
    have h := handleDownload_isSome [str "a"] hparse (by decide)
      ⟨noACLs, [], ⟨[], fun _ => none⟩⟩
    rw [← Option.not_isSome_iff_eq_none, h, canAccess_isSome_iff]
    decide

theorem authorization_terminates_rooted :
    (handleDownload demo [str "7"] [str "/a"] ⟨noACLs, [], ⟨[], fun _ => none⟩⟩).isSome = true :=
  ((authorization_terminates_iff (str "/a")).2.2.2 demo [str "7"] ⟨str "7", []⟩
    ⟨noACLs, [], ⟨[], fun _ => none⟩⟩ rfl (by decide)).mpr (by decide)

/-! ## The decisions of the two entry points -/

section

variable {σ : Type}

/-- The HTTP handler reads the file, unless it answers `forbidden`. -/
def httpDecision (srv : Config σ) (header path : Str) (w : World σ) : Option Bool :=
  (handleDownload srv [header] [path] w).map fun (reply, _) => decide (reply.code ≠ 403)

/-- The gRPC entry point reads the file, unless it answers `access denied`. -/
def grpcDecision (srv : Config σ) (env : Env) (md : Option MD) (path : Str) (w : World σ) :
    Option Bool :=
  (step srv env (.downloadObject md path) w).map fun
    | (.stream _ (.error e), _) => decide (e ≠ accessDenied)
    | _ => true

theorem code_served (srv : Config σ) (path : Str) (w : World σ) :
    (served srv path w).1.code ≠ 403 := by
  unfold served
  cases srv.backend.open_ path w.storage with
  | mk result storage => cases result <;> simp [httpError]

theorem httpDecision_eq {srv : Config σ} {header : Str} {a : AuthContext}
    (hparse : parseAuthContext srv.lib srv.verifier header = .ok a) {path : Str}
    (hpath : path ≠ []) (w : World σ) :
    httpDecision srv header path w = canAccess a path permRead w.acl := by
  have hfirst : ∀ v : Str, getFirst [v] = v := fun _ => rfl
  have hheader : parseAuthContext srv.lib srv.verifier (getFirst [header]) = .ok a := hparse
  have hquery : getFirst [path] ≠ [] := hpath
  rw [httpDecision, handleDownload_eq hheader hquery, hfirst]
  cases canAccess a path permRead w.acl with
  | none => rfl
  | some b =>
    cases b with
    | false => rfl
    | true => simpa using code_served srv path w

/-! ### What comes after the check of a download -/

/-- The error of a lower layer, not a status. -/
def IsErr (e : RpcError) : Prop := ∃ message, e = .err message

theorem onStorage_errs {α : Type} (op : Op σ α) : Errs IsErr (onStorage op) := by
  refine Errs.get.bind fun w => (Errs.set _).bind fun _ => ?_
  cases (op w.storage).1 with
  | error e => exact .throw ⟨e, rfl⟩
  | ok a => exact .pure a

theorem inWorld_errs {μ α : Type} {m : RPC (World σ) α} (h : Errs IsErr m) :
    Errs IsErr (inWorld m : RPC (StreamState (World σ) μ) α) := by
  intro s
  obtain ⟨r, w, hend, herr⟩ := h s.world
  have hlift := ends_lift (ε := RpcError) hend s
  cases r with
  | error e =>
    exact ⟨.error e, { s with world := w }, ends_bind_ok (ends_get s) (ends_bind_ok hlift
      (ends_bind_ok (ends_set _ _) (ends_throw e _))), fun e' he => herr e' (by cases he; rfl)⟩
  | ok a =>
    exact ⟨.ok a, { s with world := w }, ends_bind_ok (ends_get s) (ends_bind_ok hlift
      (ends_bind_ok (ends_set _ _) (ends_pure a _))), fun e' he => by cases he⟩

theorem sendRead_errs {μ : Type} (env : Env) (data : Str) :
    Errs IsErr (sendRead env data : RPC (StreamState (World σ) μ) Unit) := by
  unfold sendRead send
  split
  · refine Errs.get.bind fun s => ?_
    cases env.sendErr s.sent.length with
    | none => exact .set _
    | some e => exact .throw ⟨e, rfl⟩
  · exact .pure _

theorem sendReads_errs {μ : Type} (env : Env) (reads : Reads) :
    Errs IsErr (sendReads env reads : RPC (StreamState (World σ) μ) Unit) := by
  refine (Errs.forIn _ (fun data _ => ?_) _).bind fun _ => (sendRead_errs env _).bind fun _ => ?_
  · exact (sendRead_errs env data).bind fun _ => .pure _
  · cases reads.err with
    | eof => exact .pure _
    | other e => exact .throw ⟨e, rfl⟩

/-- A caller who passes the check is not refused later. -/
theorem serverStream_allowed {srv : Config σ} {store : ACLStore} {md : Option MD} {path : Str}
    {a : AuthContext} (hid : identity srv.lib srv.verifier (authHeader md) = some a)
    (hcan : canAccess a (normalize path) permRead store = some true) (env : Env) (w : World σ) :
    ∃ r s, Ends (serverStream srv env store md) ⟨w, [.ok path], false, []⟩ r s ∧
      ∀ e, r = .error e → IsErr e := by
  have hbody : Errs IsErr (do
      let r ← inWorld (onStorage (srv.backend.open_ path))
      sendReads env (r (64 * 1024)) : RPC (StreamState (World σ) Str) Unit) :=
    (inWorld_errs (onStorage_errs _)).bind fun r => sendReads_errs env _
  obtain ⟨r, s, hend, herr⟩ := hbody ⟨w, [], true, []⟩
  refine ⟨r, s, ?_, herr⟩
  simp only [serverStream, grpcStreamAuthInterceptor, authenticate_ok hid]
  refine grpcAuthZStreamInterceptor_mapped lookup_downloadObject rfl
    (ends_bind_ok (checkedRecvMsg_ends rfl hcan w [] []) ?_)
  exact ends_bind_ok (checkAccess_ends rfl hcan _) hend

theorem grpcDecision_eq {srv : Config σ} {md : Option MD} {a : AuthContext}
    (hid : identity srv.lib srv.verifier (authHeader md) = some a) (env : Env) (path : Str)
    (w : World σ) :
    grpcDecision srv env md path w = canAccess a (normalize path) permRead w.acl := by
  have hsome := (canAccess_isSome_iff a (normalize path) permRead w.acl).mpr (isAbs_normalize path)
  obtain ⟨b, hcan⟩ := Option.isSome_iff_exists.mp hsome
  rw [hcan]
  cases b with
  | false =>
    have hend := serverStream_refused hid hcan env w
    unfold Ends at hend
    simp [grpcDecision, step, runStream, hend]
  | true =>
    obtain ⟨r, s, hend, herr⟩ := serverStream_allowed hid hcan env w
    unfold Ends at hend
    simp only [grpcDecision, step, runStream, hend, Option.map_some]
    cases r with
    | ok _ => rfl
    | error e =>
      obtain ⟨message, rfl⟩ := herr e rfl
      rfl

end

/-- The metadata of a client that sends one header. -/
def singleHeader (header : Str) : MD :=
  fun key => if key = str "authorization" then [header] else []

/-- The two entry points decide alike on the path, for every deployment, every caller
with an identity and every content of the ACL store, the storage and the queue. -/
def DecisionsAgree (path : Str) : Prop :=
  ∀ {σ : Type} (srv : Config σ) (env : Env) (w : World σ) (header : Str) (a : AuthContext),
    parseAuthContext srv.lib srv.verifier header = .ok a →
    httpDecision srv header path w = grpcDecision srv env (some (singleHeader header)) path w

theorem identity_singleHeader {lib : JwtLib} {verifier : JWTVerifier} {header : Str}
    {a : AuthContext} (h : parseAuthContext lib verifier header = .ok a) :
    identity lib verifier (authHeader (some (singleHeader header))) = some a := by
  have hheader : authHeader (some (singleHeader header)) = some header := rfl
  simp [identity, hheader, h, Except.toOption]

/-- **When the two downloads agree.** On a non-empty path on which the HTTP check ends,
the read decisions of the two entry points are always the same exactly if the path has
no repeated separators and no white space at its ends. -/
theorem decisions_agree_iff {path : Str} (hpath : path ≠ [])
    (hends : LoopTerminates parentPathsRound (path, [])) :
    DecisionsAgree path ↔ contains path twoSlashes = false ∧ trimSpace path = path := by
  have habs := (parentPaths_terminates_iff path).mp hends
  rw [← normalize_eq_self_iff habs]
  constructor
  · intro hagree
    -- an entry at the very path is seen by HTTP, and by gRPC only if the walk visits it
    have hparse : parseAuthContext demo.lib demo.verifier (str "7") = .ok ⟨str "7", []⟩ := rfl
    have h := hagree demo demoEnv ⟨(onlyAt path (str "7")).asACLStore, [], ⟨[], fun _ => none⟩⟩
      (str "7") _ hparse
    rw [httpDecision_eq hparse hpath, grpcDecision_eq (identity_singleHeader hparse),
      canAccess_onlyAt habs, canAccess_onlyAt (isAbs_normalize path), Option.some.injEq,
      decide_eq_decide] at h
    have hmem := h.mp (self_mem_chain path)
    exact (normalize_sublist habs).eq_of_length_le
      (length_le_of_mem_chain (isAbs_normalize path) hmem)
  · intro hself σ srv env w header a hparse
    rw [httpDecision_eq hparse hpath, grpcDecision_eq (identity_singleHeader hparse), hself]

/-- With a repeated separator the HTTP walk jumps over the file: an entry at `/a/b`
opens `//a/b` through gRPC only. -/
theorem decisions_differ_at_double_slash :
    let w : World Str := ⟨(onlyAt (str "/a/b") (str "7")).asACLStore, [], ⟨[], fun _ => none⟩⟩
    httpDecision demo (str "7") (str "//a/b") w = some false ∧
      grpcDecision demo demoEnv (some (singleHeader (str "7"))) (str "//a/b") w = some true := by
  intro w
  have hparse : parseAuthContext demo.lib demo.verifier (str "7") = .ok ⟨str "7", []⟩ := rfl
  have hnorm : normalize (str "//a/b") = str "/a/b" := by rw [normalize_eq]; decide
  rw [httpDecision_eq hparse (by decide), grpcDecision_eq (identity_singleHeader hparse), hnorm]
  exact ⟨by decide, by decide⟩

theorem decisions_agree_plain :
    contains (str "/a/../b") twoSlashes = false ∧ DecisionsAgree (str "/a/../b") :=
  ⟨by decide, (decisions_agree_iff (by decide)
    ((parentPaths_terminates_iff (str "/a/../b")).mpr (by decide))).mpr ⟨by decide, by decide⟩⟩

end FileEngine.Server
