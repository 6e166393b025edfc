import FileEngine.Queue.Payload
import FileEngine.Server.Handlers

/-!
# Complete mediation

Every entry point asks for the identity of the caller and for the permission before it
touches the storage or the queue. A call is `Blocked` if its header proves no identity,
or if the resolver refuses the identity on the path that the entry point checks. A
blocked call ends, changes nothing, and its reply depends neither on the storage nor on
the queue (`step_blocked`).
-/

namespace FileEngine.Server

open Go Auth Authz Queue

/-- The header that the entry point reads, if it is there. -/
def Call.header : Call → Option Str
  | .createFolder md _ _ _ => authHeader md
  | .listObjects md _ => authHeader md
  | .uploadObject md _ _ => authHeader md
  | .downloadObject md _ => authHeader md
  | .httpDownload authorization _ => authorization.head?

/-- The path that the entry point checks. -/
def Call.checkedPath : Call → Str
  | .createFolder _ parentPath folderName _ => normalize (folderPath parentPath folderName)
  | .listObjects _ listPrefix => normalize listPrefix
  | .uploadObject _ path _ => normalize path
  | .downloadObject _ path => normalize path
  | .httpDownload _ query => getFirst query

/-- The permission that the entry point asks for. -/
def Call.perm : Call → Permission
  | .createFolder .. => permWrite
  | .listObjects .. => permList
  | .uploadObject .. => permWrite
  | .downloadObject .. => permRead
  | .httpDownload .. => permRead

section

variable {σ : Type}

/-- The caller has no identity, or one that is refused. -/
def Blocked (srv : Config σ) (acl : ACLStore) (call : Call) : Prop :=
  ∀ a, identity srv.lib srv.verifier call.header = some a →
    canAccess a call.checkedPath call.perm acl = some false

/-! ## Unary calls -/

theorem unary_denied {srv : Config σ} {store : ACLStore} {fullMethod : Str} {perm : Permission}
    {md : Option MD} {req : Request} {path : Str}
    (hperm : methodPermission.lookup fullMethod = some perm) (hpath : extractPath req = .ok path)
    (h : ∀ a, identity srv.lib srv.verifier (authHeader md) = some a →
      canAccess a path perm store = some false)
    (body : RPC (World σ) Response) :
    ∃ e, ∀ w, Ends (unary srv store fullMethod md req body) w (.error e) w := by
  cases hid : identity srv.lib srv.verifier (authHeader md) with
  | none =>
    obtain ⟨e, he⟩ := authenticate_error hid
    refine ⟨e, fun w => ?_⟩
    simp only [unary, grpcAuthInterceptor, he]
    exact ends_throw e w
  | some a =>
    refine ⟨accessDenied, fun w => ?_⟩
    simp only [unary, grpcAuthInterceptor, authenticate_ok hid, grpcAuthZInterceptor, hperm,
      fromContext, withAuthContext]
    exact ends_bind_error (checkAccess_ends hpath (h a hid) w) _

theorem runUnary_denied {m : RPC (World σ) Response} {acl : ACLStore}
    (h : ∃ e, ∀ w, Ends m w (.error e) w) :
    ∃ reply, ∀ storage queue,
      runUnary m ⟨acl, storage, queue⟩ = some (reply, ⟨acl, storage, queue⟩) := by
  obtain ⟨e, he⟩ := h
  exact ⟨.unary (.error e), fun storage queue => by rw [runUnary, he]; rfl⟩

/-! ## Downloads -/

theorem serverStream_refused {srv : Config σ} {store : ACLStore} {md : Option MD} {path : Str}
    {a : AuthContext} (hid : identity srv.lib srv.verifier (authHeader md) = some a)
    (hcan : canAccess a (normalize path) permRead store = some false) (env : Env) (w : World σ) :
    Ends (serverStream srv env store md) ⟨w, [.ok path], false, []⟩ (.error accessDenied)
      ⟨w, [], true, []⟩ := by
  simp only [serverStream, grpcStreamAuthInterceptor, authenticate_ok hid]
  exact grpcAuthZStreamInterceptor_mapped lookup_downloadObject rfl
    (ends_bind_error (checkedRecvMsg_ends rfl hcan w [] []) _)

theorem serverStream_denied {srv : Config σ} (env : Env) {store : ACLStore} {md : Option MD}
    {path : Str}
    (h : ∀ a, identity srv.lib srv.verifier (authHeader md) = some a →
      canAccess a (normalize path) permRead store = some false) :
    ∃ reply, ∀ w, runStream (serverStream srv env store md) path w = some (reply, w) := by
  cases hid : identity srv.lib srv.verifier (authHeader md) with
  | none =>
    obtain ⟨e, he⟩ := authenticate_error hid
    refine ⟨.stream [] (.error e), fun w => ?_⟩
    simp only [runStream, serverStream, grpcStreamAuthInterceptor, he]
    rfl
  | some a =>
    refine ⟨.stream [] (.error accessDenied), fun w => ?_⟩
    rw [runStream, serverStream_refused hid (h a hid) env w]
    rfl

/-- The reply to a caller who passed the check, and the world after it. -/
def served (srv : Config σ) (path : Str) (w : World σ) : HTTPReply × World σ :=
  let (result, storage) := srv.backend.open_ path w.storage
  (match result with
    | .error _ => httpError "not found" 404
    | .ok rc => ⟨200, str "application/octet-stream", (rc (32 * 1024)).bytes⟩,
    { w with storage := storage })

/-- With an identity and a path, everything depends on the decision of the resolver. -/
theorem handleDownload_eq {srv : Config σ} {authorization query : List Str} {a : AuthContext}
    (hparse : parseAuthContext srv.lib srv.verifier (getFirst authorization) = .ok a)
    (hpath : getFirst query ≠ []) (w : World σ) :
    handleDownload srv authorization query w =
      (canAccess a (getFirst query) permRead w.acl).map fun b =>
        if b then served srv (getFirst query) w else (httpError "forbidden" 403, w) := by
  simp only [handleDownload, hparse, if_neg hpath]
  cases canAccess a (getFirst query) permRead w.acl with
  | none => rfl
  | some b =>
    cases b with
    | false => rfl
    | true =>
      cases hopen : srv.backend.open_ (getFirst query) w.storage with
      | mk result storage => cases result <;> simp [served, hopen]

theorem handleDownload_denied {srv : Config σ} {acl : ACLStore} {authorization query : List Str}
    (h : ∀ a, identity srv.lib srv.verifier authorization.head? = some a →
      canAccess a (getFirst query) permRead acl = some false) :
    ∃ reply, ∀ storage queue, handleDownload srv authorization query ⟨acl, storage, queue⟩ =
      some (reply, ⟨acl, storage, queue⟩) := by
  cases hparse : parseAuthContext srv.lib srv.verifier (getFirst authorization) with
  | error e =>
    refine ⟨httpError "unauthorized" 401, fun storage queue => ?_⟩
    simp only [handleDownload, hparse]
  | ok a =>
    have hid : identity srv.lib srv.verifier authorization.head? = some a := by
      cases authorization with
      | nil => cases hparse
      | cons header rest =>
        have hheader : parseAuthContext srv.lib srv.verifier header = .ok a := hparse
        simp [identity, hheader, Except.toOption]
    by_cases hpath : getFirst query = []
    · refine ⟨httpError "missing path" 400, fun storage queue => ?_⟩
      simp only [handleDownload, hparse, hpath, if_true]
    · refine ⟨httpError "forbidden" 403, fun storage queue => ?_⟩
      rw [handleDownload_eq hparse hpath, h a hid]
      rfl

/-- **Complete mediation.** If the header of a call is missing or rejected, or the
resolver refuses the caller on the path that the entry point checks, then the call ends
with the ACL store, the storage and the queue exactly as they were, and with the same
reply for all contents of the storage and the queue. -/
theorem step_blocked (srv : Config σ) (env : Env) (acl : ACLStore) (call : Call)
    (h : Blocked srv acl call) :
    ∃ reply, ∀ storage queue, step srv env call ⟨acl, storage, queue⟩ =
      some (reply, ⟨acl, storage, queue⟩) := by
  cases call with
  | createFolder md parentPath folderName requestedBy =>
    exact runUnary_denied (unary_denied lookup_createFolder rfl h _)
  | listObjects md listPrefix => exact runUnary_denied (unary_denied lookup_listObjects rfl h _)
  | uploadObject md path content =>
    exact runUnary_denied (unary_denied lookup_uploadObject rfl h _)
  | downloadObject md path =>
    obtain ⟨reply, hreply⟩ := serverStream_denied env h
    exact ⟨reply, fun storage queue => hreply ⟨acl, storage, queue⟩⟩
  | httpDownload authorization query =>
    obtain ⟨reply, hreply⟩ := handleDownload_denied h
    exact ⟨.http reply, fun storage queue => by simp [step, hreply]⟩

end

/-! ## A small deployment -/

/-- A backend with a single file; its state is the content. -/
def oneFile : Storage Str where
  createFolder _ s := (.ok (), s)
  atomicWrite _ r _ := (.ok (), (r 512).bytes)
  move _ _ s := (.ok (), s)
  delete _ _ := (.ok (), [])
  exists_ _ s := (.ok true, s)
  list _ s := (.ok [⟨str "/f", s.length, false⟩], s)
  open_ _ s := (.ok (newReader s), s)

def demo : Config Str where
  lib := sampleLib
  verifier := ⟨str "secret", none, [], []⟩
  backend := oneFile
  codec := jsonCodec

def demoEnv : Env := ⟨0, .ok, fun _ => none⟩

def noACLs : ACLStore := ⟨fun _ => [], none⟩

/-- A caller with a valid token and no rights learns nothing about the file. -/
theorem step_blocked_stranger :
    identity demo.lib demo.verifier (some (str "Bearer 7")) = some ⟨str "7", []⟩ ∧
      ∃ reply, ∀ storage queue,
        step demo demoEnv (.httpDownload [str "Bearer 7"] [str "/f"]) ⟨noACLs, storage, queue⟩ =
          some (reply, ⟨noACLs, storage, queue⟩) := by
  have hid : identity demo.lib demo.verifier (some (str "Bearer 7")) = some ⟨str "7", []⟩ := rfl
  refine ⟨hid, step_blocked demo demoEnv noACLs _ fun a ha => ?_⟩
  obtain rfl : ⟨str "7", []⟩ = a := Option.some.inj (hid.symm.trans ha)
  decide

end FileEngine.Server
