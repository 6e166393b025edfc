import FileEngine.Server.Chunks
import FileEngine.Server.Downloads
import FileEngine.Server.FolderRequests

/-!
# What a call of the server does

Each entry point first comes to a decision on the caller and then, if the caller is let
through, to an operation of the queue or the storage. `decision` is the first part: `some true`
if the caller is let through, `some false` if not, and `none` if the walk of the resolver does
not end. `carryOut` is the second part, with the reply that is made from the result.

`step_letThrough` and `step_turnedAway` say all that a call can do; what is proved about runs
of the server rests on these two.
-/

namespace FileEngine.Server

open Go Auth Authz Queue

/-! ## The two parts of a call -/

section

variable {σ : Type}

def decision (srv : Config σ) (acl : ACLStore) (call : Call) : Option Bool :=
  match identity srv.lib srv.verifier call.header with
  | none => some false
  | some a => canAccess a call.checkedPath call.perm acl

/-- What is sent of an opened object, and how the stream ends. -/
def streamed (env : Env) (reads : Reads) : List Str × Except RpcError Unit :=
  let d := deliver env.sendErr 0 (nonEmpty (reads.chunks ++ [reads.last]))
  (d.1, match d.2, reads.err with
    | some e, _ => .error (.err e)
    | none, .other e => .error (.err e)
    | none, .eof => .ok ())

/-- The reply that is made from the result of an operation. -/
def replyWith {α : Type} (respond : α → Response) : Except Str α → Reply
  | .error e => .unary (.error (.err e))
  | .ok a => .unary (.ok (respond a))

def carryOut (srv : Config σ) (env : Env) (call : Call) (w : World σ) : Reply × World σ :=
  match call with
  | .createFolder _ parentPath folderName requestedBy =>
      let (result, queue) :=
        enqueueCreateFolder srv.codec env.now env.rpush parentPath folderName requestedBy w.queue
      (replyWith (fun id => .createFolder id (str "queued") (str "Folder creation scheduled"))
        result, { w with queue })
  | .listObjects _ listPrefix =>
      let (result, storage) := srv.backend.list listPrefix w.storage
      (replyWith .listObjects result, { w with storage })
  | .uploadObject _ path content =>
      let (result, storage) := srv.backend.atomicWrite path (newReader content) w.storage
      (replyWith (fun _ => .uploadObject true) result, { w with storage })
  | .downloadObject _ path =>
      let (result, storage) := srv.backend.open_ path w.storage
      (match result with
        | .error e => .stream [] (.error (.err e))
        | .ok r => .stream (streamed env (r (64 * 1024))).1 (streamed env (r (64 * 1024))).2,
        { w with storage })
  | .httpDownload _ query =>
      let (reply, w) := served srv (getFirst query) w
      (.http reply, w)

theorem carryOut_acl (srv : Config σ) (env : Env) (call : Call) (w : World σ) :
    (carryOut srv env call w).2.acl = w.acl := by
  cases call <;> rfl

/-! ## Callers who are let through -/

theorem decision_true {srv : Config σ} {acl : ACLStore} {call : Call}
    (h : decision srv acl call = some true) :
    ∃ a, identity srv.lib srv.verifier call.header = some a ∧
      canAccess a call.checkedPath call.perm acl = some true := by
  unfold decision at h
  split at h
  · cases h
  · rename_i a ha
    exact ⟨a, ha, h⟩

theorem onStorage_ends {α : Type} (op : Op σ α) (w : World σ) :
    Ends (onStorage op) w ((op w.storage).1.mapError .err)
      { w with storage := (op w.storage).2 } := by
  refine ends_bind_ok (ends_get w) ?_
  rcases op w.storage with ⟨result, storage⟩
  cases result with
  | error e => exact ends_bind_ok (ends_set _ _) (ends_throw _ _)
  | ok a => exact ends_bind_ok (ends_set _ _) (ends_pure _ _)

/-- An operation whose result is turned into the response. -/
theorem respond_ends {α : Type} {m : RPC (World σ) α} {result : Except Str α} {w w' : World σ}
    (h : Ends m w (result.mapError .err) w') (respond : α → Response) :
    Ends (m >>= fun a => pure (respond a)) w
      (match result with | .error e => .error (.err e) | .ok a => .ok (respond a)) w' := by
  cases result with
  | error e => exact ends_bind_error h _
  | ok a => exact ends_bind_ok h (ends_pure _ _)

theorem runUnary_respond {α : Type} {srv : Config σ} {store : ACLStore} {fullMethod : Str}
    {perm : Permission} {md : Option MD} {req : Request} {path : Str} {a : AuthContext}
    (hperm : methodPermission.lookup fullMethod = some perm) (hpath : extractPath req = .ok path)
    (hid : identity srv.lib srv.verifier (authHeader md) = some a)
    (hcan : canAccess a path perm store = some true) {m : RPC (World σ) α} {result : Except Str α}
    {w w' : World σ} (h : Ends m w (result.mapError .err) w') (respond : α → Response) :
    runUnary (unary srv store fullMethod md req (m >>= fun a => pure (respond a))) w =
      some (replyWith respond result, w') := by
  rw [runUnary, unary_admitted hperm hpath hid hcan (respond_ends h respond)]
  cases result <;> rfl

/-- The body of a download, once the message is received and the caller is let through. -/
theorem download_ends (srv : Config σ) (env : Env) {store : ACLStore} (md : Option MD) {path : Str}
    {a : AuthContext} (hcan : canAccess a (normalize path) permRead store = some true)
    (w : World σ) :
    let opened := srv.backend.open_ path w.storage
    Ends (downloadObject srv env store ⟨md, some a⟩ path :
        RPC (StreamState (World σ) Str) Unit) ⟨w, [], true, []⟩
      (match opened.1 with
        | .error e => .error (.err e)
        | .ok r => (streamed env (r (64 * 1024))).2)
      ⟨{ w with storage := opened.2 }, [], true, match opened.1 with
        | .error _ => []
        | .ok r => (streamed env (r (64 * 1024))).1⟩ := by
  intro opened
  have hstorage := onStorage_ends (srv.backend.open_ path) w
  have hpath : extractPath (.downloadObject path) = .ok (normalize path) := rfl
  have hcheck := checkAccess_ends hpath hcan (⟨w, [], true, []⟩ : StreamState (World σ) Str)
  unfold downloadObject
  simp only [fromContext]
  refine ends_bind_ok hcheck ?_
  rcases hopen : opened with ⟨result, storage⟩
  rw [show srv.backend.open_ path w.storage = (result, storage) from hopen] at hstorage
  cases result with
  | error e =>
    have hworld : Ends (inWorld (onStorage (srv.backend.open_ path)) :
        RPC (StreamState (World σ) Str) Reader) ⟨w, [], true, []⟩ (.error (.err e))
        ⟨{ w with storage }, [], true, []⟩ :=
      ends_bind_ok (ends_get _) (ends_bind_ok (ends_lift hstorage _)
        (ends_bind_ok (ends_set _ _) (ends_throw _ _)))
    exact ends_bind_error hworld _
  | ok r => exact ends_bind_ok (open_ends hopen) (sendReads_ends env _ _)

/-- The stream of a caller who is let through comes to the body of the handler. -/
theorem serverStream_body {srv : Config σ} {env : Env} {store : ACLStore} {md : Option MD}
    {path : Str} {a : AuthContext} (hid : identity srv.lib srv.verifier (authHeader md) = some a)
    (hcan : canAccess a (normalize path) permRead store = some true) {w : World σ}
    {r : Except RpcError Unit} {s : StreamState (World σ) Str}
    (hbody : Ends (downloadObject srv env store ⟨md, some a⟩ path) ⟨w, [], true, []⟩ r s) :
    Ends (serverStream srv env store md) ⟨w, [.ok path], false, []⟩ r s := by
  have hpath : extractPath (Request.downloadObject path) = .ok (normalize path) := rfl
  have hrecv := checkedRecvMsg_ends hpath hcan w [] []
  simp only [serverStream, grpcStreamAuthInterceptor, authenticate_ok hid, withAuthContext]
  exact grpcAuthZStreamInterceptor_mapped lookup_downloadObject rfl (ends_bind_ok hrecv hbody)

theorem runStream_letThrough {srv : Config σ} (env : Env) {store : ACLStore} {md : Option MD}
    {path : Str} {a : AuthContext} (hid : identity srv.lib srv.verifier (authHeader md) = some a)
    (hcan : canAccess a (normalize path) permRead store = some true) (w : World σ) :
    runStream (serverStream srv env store md) path w =
      some (carryOut srv env (.downloadObject md path) w) := by
  rw [runStream, serverStream_body hid hcan (download_ends srv env md hcan w)]
  cases hopen : srv.backend.open_ path w.storage with
  | mk result storage => cases result <;> simp [carryOut, hopen]

/-- What an HTTP header proves, as the handler reads it. -/
theorem parse_of_identity {srv : Config σ} {authorization : List Str} {a : AuthContext}
    (h : identity srv.lib srv.verifier authorization.head? = some a) :
    parseAuthContext srv.lib srv.verifier (getFirst authorization) = .ok a := by
  obtain ⟨header, hheader, hparse⟩ := Option.bind_eq_some_iff.mp h
  obtain ⟨rest, rfl⟩ := List.head?_eq_some_iff.mp hheader
  cases hp : parseAuthContext srv.lib srv.verifier header with
  | error e => simp [hp, Except.toOption] at hparse
  | ok a' =>
    obtain rfl : a' = a := by simpa [hp, Except.toOption] using hparse
    exact hp

/-- **A call that is let through** is carried out. -/
theorem step_letThrough {srv : Config σ} {call : Call} {w : World σ}
    (h : decision srv w.acl call = some true) (env : Env) :
    step srv env call w = some (carryOut srv env call w) := by
  obtain ⟨a, hid, hcan⟩ := decision_true h
  cases call with
  | createFolder md parentPath folderName requestedBy =>
    exact runUnary_respond lookup_createFolder rfl hid hcan (onQueue_ends _ w) _
  | listObjects md listPrefix =>
    have hitems : (fun items : List ObjectInfo =>
        Response.listObjects (items.map fun it => ⟨it.path, it.size, it.isDir⟩)) =
          .listObjects := by
      funext items
      simp
    show runUnary (unary srv w.acl methodListObjects md (.listObjects listPrefix)
      (onStorage (srv.backend.list listPrefix) >>= fun items =>
        pure (.listObjects (items.map fun it => ⟨it.path, it.size, it.isDir⟩)))) w = _
    rw [runUnary_respond lookup_listObjects rfl hid hcan (onStorage_ends _ w), hitems]
    rfl
  | uploadObject md path content =>
    exact runUnary_respond lookup_uploadObject rfl hid hcan (onStorage_ends _ w) _
  | downloadObject md path => exact runStream_letThrough env hid hcan w
  | httpDownload authorization query =>
    have habs : isAbs (getFirst query) = true := by
      rw [← canAccess_isSome_iff a _ permRead w.acl]
      exact Option.isSome_of_eq_some hcan
    have hpath : getFirst query ≠ [] := by
      rintro he
      rw [he] at habs
      cases habs
    have hcan' : canAccess a (getFirst query) permRead w.acl = some true := hcan
    simp only [step, handleDownload_eq (parse_of_identity hid) hpath, hcan']
    rfl

/-! ## Callers who are not -/

theorem decision_false {srv : Config σ} {acl : ACLStore} {call : Call}
    (h : decision srv acl call = some false) : Blocked srv acl call := by
  intro a ha
  simpa only [decision, ha] using h

/-- On a path from the root the walk of the resolver ends. -/
theorem decision_rooted {srv : Config σ} {acl : ACLStore} {call : Call}
    (h : decision srv acl call ≠ some true) (hpath : isAbs call.checkedPath = true) :
    Blocked srv acl call := by
  apply decision_false
  unfold decision at h ⊢
  split
  · rfl
  · rename_i a ha
    simp only [ha] at h
    obtain ⟨b, hb⟩ := Option.isSome_iff_exists.mp
      ((canAccess_isSome_iff a call.checkedPath call.perm acl).mpr hpath)
    cases b with
    | false => exact hb
    | true => exact absurd hb h

/-- The reply of an entry point that has not let the caller through. -/
def Reply.Refused : Reply → Prop
  | .unary result => ∃ e, result = .error e
  | .stream sent result => sent = [] ∧ ∃ e, result = .error e
  | .http reply => reply.code ≠ 200

theorem runUnary_refused {m : RPC (World σ) Response} (acl : ACLStore)
    (h : ∃ e, ∀ w, Ends m w (.error e) w) :
    ∃ reply : Option Reply, (∀ r, reply = some r → r.Refused) ∧
      ∀ storage queue, runUnary m ⟨acl, storage, queue⟩ =
        reply.map fun r => (r, ⟨acl, storage, queue⟩) := by
  obtain ⟨e, he⟩ := h
  refine ⟨some (.unary (.error e)), ?_, fun storage queue => ?_⟩
  · rintro r ⟨⟩
    exact ⟨e, rfl⟩
  · rw [runUnary, he]
    rfl

theorem runStream_refused {srv : Config σ} (env : Env) (acl : ACLStore) {md : Option MD}
    {path : Str} (h : Blocked srv acl (.downloadObject md path)) :
    ∃ reply : Option Reply, (∀ r, reply = some r → r.Refused) ∧
      ∀ storage queue, runStream (serverStream srv env acl md) path ⟨acl, storage, queue⟩ =
        reply.map fun r => (r, ⟨acl, storage, queue⟩) := by
  have hrefused : ∀ e r, some (Reply.stream [] (.error e)) = some r → r.Refused := by
    rintro e r ⟨⟩
    exact ⟨rfl, e, rfl⟩
  cases hid : identity srv.lib srv.verifier (authHeader md) with
  | none =>
    obtain ⟨e, he⟩ := authenticate_error hid
    refine ⟨some (.stream [] (.error e)), hrefused e, fun storage queue => ?_⟩
    simp only [runStream, serverStream, grpcStreamAuthInterceptor, he]
    rfl
  | some a =>
    refine ⟨some (.stream [] (.error accessDenied)), hrefused _, fun storage queue => ?_⟩
    rw [runStream, serverStream_refused hid (h a hid) env]
    rfl

/-- An HTTP download is refused, or it does not end. -/
theorem handleDownload_refused {srv : Config σ} {acl : ACLStore} {authorization query : List Str}
    (h : decision srv acl (.httpDownload authorization query) ≠ some true) :
    ∃ reply : Option HTTPReply, (∀ r, reply = some r → r.code ≠ 200) ∧
      ∀ storage queue, handleDownload srv authorization query ⟨acl, storage, queue⟩ =
        reply.map fun r => (r, ⟨acl, storage, queue⟩) := by
  have hcode : ∀ (message : String) code r, code ≠ 200 →
      some (httpError message code) = some r → r.code ≠ 200 := by
    rintro message code r hne ⟨⟩
    exact hne
  cases hparse : parseAuthContext srv.lib srv.verifier (getFirst authorization) with
  | error e =>
    refine ⟨some (httpError "unauthorized" 401), fun r => hcode _ _ r (by decide), ?_⟩
    intro storage queue
    simp only [handleDownload, hparse, Option.map_some]
  | ok a =>
    by_cases hpath : getFirst query = []
    · refine ⟨some (httpError "missing path" 400), fun r => hcode _ _ r (by decide), ?_⟩
      intro storage queue
      simp only [handleDownload, hparse, hpath, if_true, Option.map_some]
    · have hid : identity srv.lib srv.verifier authorization.head? = some a := by
        cases authorization with
        | nil => cases hparse
        | cons header rest =>
          have hheader : parseAuthContext srv.lib srv.verifier header = .ok a := hparse
          simp [identity, hheader, Except.toOption]
      have hcan : canAccess a (getFirst query) permRead acl ≠ some true := by
        simp only [decision, Call.header, hid] at h
        exact h
      cases hdecision : canAccess a (getFirst query) permRead acl with
      | none =>
        refine ⟨none, fun r (hr : none = some r) => (by cases hr), fun storage queue => ?_⟩
        simp only [handleDownload_eq hparse hpath, hdecision]
        rfl
      | some b =>
        cases b with
        | true => exact absurd hdecision hcan
        | false =>
          refine ⟨some (httpError "forbidden" 403), fun r => hcode _ _ r (by decide), ?_⟩
          intro storage queue
          simp only [handleDownload_eq hparse hpath, hdecision]
          rfl

/-- **A call that is not let through** changes nothing. Its reply, if there is one, is a refusal
and depends neither on the storage nor on the queue. -/
theorem step_turnedAway {srv : Config σ} {acl : ACLStore} {call : Call}
    (h : decision srv acl call ≠ some true) (env : Env) :
    ∃ reply : Option Reply, (∀ r, reply = some r → r.Refused) ∧
      ∀ storage queue, step srv env call ⟨acl, storage, queue⟩ =
        reply.map fun r => (r, ⟨acl, storage, queue⟩) := by
  cases call with
  | createFolder md parentPath folderName requestedBy =>
    have hblocked := decision_rooted h (isAbs_normalize _)
    exact runUnary_refused acl (unary_denied lookup_createFolder rfl hblocked _)
  | listObjects md listPrefix =>
    have hblocked := decision_rooted h (isAbs_normalize _)
    exact runUnary_refused acl (unary_denied lookup_listObjects rfl hblocked _)
  | uploadObject md path content =>
    have hblocked := decision_rooted h (isAbs_normalize _)
    exact runUnary_refused acl (unary_denied lookup_uploadObject rfl hblocked _)
  | downloadObject md path =>
    exact runStream_refused env acl (decision_rooted h (isAbs_normalize _))
  | httpDownload authorization query =>
    obtain ⟨reply, hrefused, hreply⟩ := handleDownload_refused h
    refine ⟨reply.map .http, fun r hr => ?_, fun storage queue => ?_⟩
    · obtain ⟨reply', hsome, rfl⟩ := Option.map_eq_some_iff.mp hr
      exact hrefused reply' hsome
    · simp only [step, hreply]
      cases reply <;> rfl

end

end FileEngine.Server
