import FileEngine.Queue.Redisq
import FileEngine.Server.Interceptors
import FileEngine.Storage.Interface

/-!
# The handlers and the server

`internal/handlers/grpc_handler.go`, `internal/services/object_service.go`,
`internal/server/download_http.go` and the interceptor chains of
`internal/server/server.go`.

A `World` is the ACL store, the state of the storage backend and Redis. `Config` holds
what is fixed when the server is started, `Env` what one call meets: the clock, the
outcome of the call to Redis, and the sends that fail. `step` runs one call.
-/

namespace FileEngine.Server

open Go Auth Authz Queue

structure World (σ : Type) where
  acl : ACLStore
  storage : σ
  queue : Redis

structure Config (σ : Type) where
  lib : JwtLib
  verifier : JWTVerifier
  backend : Storage σ
  codec : Codec

structure Env where
  now : Nat
  rpush : Outcome
  /-- The error of a `Send` after so many messages. -/
  sendErr : Nat → Option Str

inductive Response
  | createFolder (taskId status message : Str)
  | listObjects (items : List ObjectInfo)
  | uploadObject (success : Bool)

section

variable {σ μ : Type}

/-- An operation of the storage backend. -/
def onStorage {α : Type} (op : Op σ α) : RPC (World σ) α := do
  let w ← get
  let (result, storage) := op w.storage
  set { w with storage := storage }
  match result with
  | .error e => throw (.err e)
  | .ok a => return a

/-- An operation of the queue. -/
def onQueue {α : Type} (op : Op Redis α) : RPC (World σ) α := do
  let w ← get
  let (result, queue) := op w.queue
  set { w with queue := queue }
  match result with
  | .error e => throw (.err e)
  | .ok a => return a

/-! ## `GRPCHandler` -/

def createFolder (srv : Config σ) (env : Env) (parentPath folderName requestedBy : Str) :
    RPC (World σ) Response := do
  let taskID ← onQueue
    (enqueueCreateFolder srv.codec env.now env.rpush parentPath folderName requestedBy)
  return .createFolder taskID (str "queued") (str "Folder creation scheduled")

def listObjects (srv : Config σ) (listPrefix : Str) : RPC (World σ) Response := do
  let items ← onStorage (srv.backend.list listPrefix)
  return .listObjects (items.map fun it => ⟨it.path, it.size, it.isDir⟩)

def uploadObject (srv : Config σ) (path content : Str) : RPC (World σ) Response := do
  onStorage (srv.backend.atomicWrite path (newReader content))
  return .uploadObject true

/-- A computation of the server inside a stream. -/
def inWorld {α : Type} (m : RPC (World σ) α) : RPC (StreamState (World σ) μ) α := do
  let s ← get
  let (result, world) ← (m.run.run s.world : Option (Except RpcError α × World σ))
  set { s with world := world }
  match result with
  | .error e => throw e
  | .ok a => return a

/-- `stream.Send`. -/
def send (env : Env) (data : Str) : RPC (StreamState (World σ) μ) Unit := do
  let s ← get
  match env.sendErr s.sent.length with
  | some e => throw (.err e)
  | none => set { s with sent := s.sent ++ [data] }

/-- One round of the download loop sends what was read, if anything was. -/
def sendRead (env : Env) (data : Str) : RPC (StreamState (World σ) μ) Unit := do
  if data ≠ [] then send env data

/-- The loop of the download: every read is sent, until one comes with an error. -/
def sendReads (env : Env) (reads : Reads) : RPC (StreamState (World σ) μ) Unit := do
  for data in reads.chunks do
    sendRead env data
  sendRead env reads.last
  match reads.err with
  | .eof => return
  | .other e => throw (.err e)

def downloadObject (srv : Config σ) (env : Env) (store : ACLStore) (ctx : Ctx) (path : Str) :
    RPC (StreamState (World σ) μ) Unit := do
  match fromContext ctx with
  | none => throw missingAuthContext
  | some authCtx =>
      checkAccess store authCtx permRead (.downloadObject path)
      let r ← inWorld (onStorage (srv.backend.open_ path))
      sendReads env (r (64 * 1024))

/-! ## `HTTPServer.handleDownload` -/

structure HTTPReply where
  code : Nat
  contentType : Str
  body : Str
  deriving DecidableEq

/-- `http.Error`. -/
def httpError (message : String) (code : Nat) : HTTPReply :=
  ⟨code, str "text/plain; charset=utf-8", str message ++ [10]⟩

/-- `Get` on header fields or query values: the first one, or the empty string. -/
def getFirst (values : List Str) : Str := values.headD []

def handleDownload (srv : Config σ) (authorization query : List Str) (w : World σ) :
    Option (HTTPReply × World σ) :=
  match parseAuthContext srv.lib srv.verifier (getFirst authorization) with
  | .error _ => some (httpError "unauthorized" 401, w)
  | .ok a =>
      let path := getFirst query
      if path = [] then some (httpError "missing path" 400, w)
      else do
        if ¬ (← canAccess a path permRead w.acl) then
          return (httpError "forbidden" 403, w)
        let (result, storage) := srv.backend.open_ path w.storage
        let w := { w with storage := storage }
        match result with
        | .error _ => return (httpError "not found" 404, w)
        | .ok rc => return (⟨200, str "application/octet-stream", (rc (32 * 1024)).bytes⟩, w)

/-! ## One call -/

inductive Call
  | createFolder (md : Option MD) (parentPath folderName requestedBy : Str)
  | listObjects (md : Option MD) (listPrefix : Str)
  | uploadObject (md : Option MD) (path content : Str)
  | downloadObject (md : Option MD) (path : Str)
  | httpDownload (authorization query : List Str)

inductive Reply
  | unary (result : Except RpcError Response)
  | stream (sent : List Str) (result : Except RpcError Unit)
  | http (reply : HTTPReply)

/-- The chain of a unary call. -/
def unary (srv : Config σ) (store : ACLStore) (fullMethod : Str) (md : Option MD) (req : Request)
    (body : RPC (World σ) Response) : RPC (World σ) Response :=
  grpcAuthInterceptor srv.lib srv.verifier ⟨md, none⟩ fun ctx =>
    grpcAuthZInterceptor store fullMethod ctx req fun _ => body

/-- The chain of a download; the handler receives one message before its body runs. -/
def serverStream (srv : Config σ) (env : Env) (store : ACLStore) (md : Option MD) :
    RPC (StreamState (World σ) Str) Unit :=
  grpcStreamAuthInterceptor srv.lib srv.verifier ⟨md, none⟩ recvMsg fun ctx recvMsg =>
    grpcAuthZStreamInterceptor Request.downloadObject store methodDownloadObject ctx recvMsg
      fun ctx recvMsg => do
        let path ← recvMsg
        downloadObject srv env store ctx path

def runUnary (m : RPC (World σ) Response) (w : World σ) : Option (Reply × World σ) :=
  (m.run.run w).map fun (result, w) => (.unary result, w)

def runStream (m : RPC (StreamState (World σ) Str) Unit) (path : Str) (w : World σ) :
    Option (Reply × World σ) :=
  (m.run.run ⟨w, [.ok path], false, []⟩).map fun (result, s) => (.stream s.sent result, s.world)

def step (srv : Config σ) (env : Env) (call : Call) (w : World σ) : Option (Reply × World σ) :=
  match call with
  | .createFolder md parentPath folderName requestedBy =>
      runUnary (unary srv w.acl methodCreateFolder md
        (.createFolder parentPath folderName requestedBy)
        (createFolder srv env parentPath folderName requestedBy)) w
  | .listObjects md listPrefix =>
      runUnary (unary srv w.acl methodListObjects md (.listObjects listPrefix)
        (listObjects srv listPrefix)) w
  | .uploadObject md path content =>
      runUnary (unary srv w.acl methodUploadObject md (.uploadObject path content)
        (uploadObject srv path content)) w
  | .downloadObject md path => runStream (serverStream srv env w.acl md) path w
  | .httpDownload authorization query =>
      (handleDownload srv authorization query w).map fun (reply, w) => (.http reply, w)

end

end FileEngine.Server
