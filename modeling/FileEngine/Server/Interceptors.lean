import FileEngine.Auth.Jwt
import FileEngine.Authz.PathExtract
import FileEngine.Go.Computation

/-!
# The interceptors of the gRPC server

`internal/auth/grpc_interceptor.go`, `internal/auth/context.go` and
`internal/authz/grpc_authz_interceptor.go`.

A computation of the server (`RPC ω`) runs over a state `ω`, ends with a result or an
error, and may also not end at all, since `CanAccess` may not (`none`). An interceptor
is given the handler that it may call; the handlers of the requests are in `Handlers`.

For a stream, the `RecvMsg` of the stream is passed along: the authorization interceptor
hands its handler a stream whose `RecvMsg` checks the first message (`checkedRecvMsg`).
Messages have a type `μ` of their own, read as a request by `toRequest`.
-/

namespace FileEngine.Server

open Go Auth Authz

inductive Code
  | invalidArgument
  | permissionDenied
  | unauthenticated
  deriving DecidableEq

/-- What a handler returns as its error: a status, or an error of a lower layer. -/
inductive RpcError
  | status (code : Code) (message : Str)
  | err (message : Str)
  deriving DecidableEq

abbrev RPC (ω : Type) := Comp RpcError ω

/-! ## Contexts -/

/-- Incoming metadata, by lower-case key. -/
abbrev MD := Str → List Str

/-- `md.Get`, which lowers the key. -/
def MD.get (md : MD) (key : Str) : List Str := md (key.map lowerByte)

structure Ctx where
  md : Option MD
  auth : Option AuthContext

def withAuthContext (ctx : Ctx) (a : AuthContext) : Ctx := { ctx with auth := some a }

def fromContext (ctx : Ctx) : Option AuthContext := ctx.auth

/-! ## Authentication -/

/-- What both authentication interceptors do with the metadata. -/
def authenticate (lib : JwtLib) (verifier : JWTVerifier) (md : Option MD) :
    Except RpcError AuthContext :=
  match md with
  | none => .error (.status .unauthenticated (str "missing metadata"))
  | some md =>
      let vals := md.get (str "authorization")
      let vals := if vals = [] then md.get (str "Authorization") else vals
      match vals with
      | [] => .error (.status .unauthenticated (str "missing authorization"))
      | header :: _ =>
          match parseAuthContext lib verifier header with
          | .error _ => .error (.status .unauthenticated (str "invalid token"))
          | .ok a => .ok a

/-- The header that the interceptors read. -/
def authHeader (md : Option MD) : Option Str :=
  md.bind fun md => (md.get (str "authorization")).head?

/-- The identity that a header proves. -/
def identity (lib : JwtLib) (verifier : JWTVerifier) (header : Option Str) :
    Option AuthContext :=
  header.bind fun h => (parseAuthContext lib verifier h).toOption

theorem authenticate_ok {lib : JwtLib} {verifier : JWTVerifier} {md : Option MD}
    {a : AuthContext} (h : identity lib verifier (authHeader md) = some a) :
    authenticate lib verifier md = .ok a := by
  obtain ⟨header, hheader, hparse⟩ := Option.bind_eq_some_iff.mp h
  obtain ⟨md, rfl, hvals⟩ := Option.bind_eq_some_iff.mp hheader
  obtain ⟨rest, hvals⟩ := List.head?_eq_some_iff.mp hvals
  cases hp : parseAuthContext lib verifier header with
  | error e => simp [hp, Except.toOption] at hparse
  | ok a' =>
    obtain rfl : a' = a := by simpa [hp, Except.toOption] using hparse
    simp [authenticate, hvals, hp]

theorem authenticate_error {lib : JwtLib} {verifier : JWTVerifier} {md : Option MD}
    (h : identity lib verifier (authHeader md) = none) :
    ∃ e, authenticate lib verifier md = .error e := by
  cases hauth : authenticate lib verifier md with
  | error e => exact ⟨e, rfl⟩
  | ok a =>
    exfalso
    cases md with
    | none => cases hauth
    | some md =>
      -- both spellings of the key are the same key
      have hsame : md.get (str "Authorization") = md.get (str "authorization") :=
        congrArg md (by decide)
      simp only [authenticate, hsame, ite_self] at hauth
      cases hvals : md.get (str "authorization") with
      | nil => simp [hvals] at hauth
      | cons header rest =>
        cases hp : parseAuthContext lib verifier header with
        | error e => simp [hvals, hp] at hauth
        | ok a' => simp [identity, authHeader, hvals, hp, Except.toOption] at h

section

variable {ω α μ : Type}

def grpcAuthInterceptor (lib : JwtLib) (verifier : JWTVerifier) (ctx : Ctx)
    (handler : Ctx → RPC ω α) : RPC ω α :=
  match authenticate lib verifier ctx.md with
  | .error e => throw e
  | .ok a => handler (withAuthContext ctx a)

/-- The stream is wrapped with the new context; its `RecvMsg` is the one given. -/
def grpcStreamAuthInterceptor (lib : JwtLib) (verifier : JWTVerifier) (ctx : Ctx)
    (recvMsg : RPC ω μ) (handler : Ctx → RPC ω μ → RPC ω α) : RPC ω α :=
  match authenticate lib verifier ctx.md with
  | .error e => throw e
  | .ok a => handler (withAuthContext ctx a) recvMsg

/-! ## Authorization -/

def missingAuthContext : RpcError := .status .unauthenticated (str "missing auth context")

def cannotExtractPath : RpcError := .status .invalidArgument (str "cannot extract path")

def accessDenied : RpcError := .status .permissionDenied (str "access denied")

/-- The check of a request: extract its path and ask the resolver. -/
def checkAccess (store : ACLStore) (a : AuthContext) (perm : Permission) (req : Request) :
    RPC ω Unit := do
  match extractPath req with
  | .error _ => throw cannotExtractPath
  | .ok path =>
      if ¬ (← (canAccess a path perm store : Option Bool)) then
        throw accessDenied

theorem checkAccess_ends {store : ACLStore} {a : AuthContext} {perm : Permission} {req : Request}
    {path : Str} (hpath : extractPath req = .ok path) {b : Bool}
    (h : canAccess a path perm store = some b) (s : ω) :
    Ends (checkAccess store a perm req) s (if b then .ok () else .error accessDenied) s := by
  unfold checkAccess
  simp only [hpath]
  refine ends_bind_ok (ends_lift h s) ?_
  cases b with
  | false => exact ends_throw _ s
  | true => exact ends_pure _ s

def grpcAuthZInterceptor (store : ACLStore) (fullMethod : Str) (ctx : Ctx) (req : Request)
    (handler : Ctx → RPC ω α) : RPC ω α :=
  match methodPermission.lookup fullMethod with
  | none =>
      match fromContext ctx with
      | none => throw missingAuthContext
      | some _ => handler ctx
  | some perm =>
      match fromContext ctx with
      | none => throw missingAuthContext
      | some a => do
          checkAccess store a perm req
          handler ctx

end

/-- The state of a stream: the state of the server, what the underlying `RecvMsg` will
return, the flag of the wrapped stream, and the messages sent. -/
structure StreamState (ω μ : Type) where
  world : ω
  inbound : List (Except RpcError μ)
  checked : Bool
  sent : List Str

section

variable {ω α μ : Type}

/-- The underlying `RecvMsg`. -/
def recvMsg : RPC (StreamState ω μ) μ := do
  let s ← get
  match s.inbound with
  | [] => throw (.err (str "EOF"))
  | .error e :: rest =>
      set { s with inbound := rest }
      throw e
  | .ok m :: rest =>
      set { s with inbound := rest }
      return m

/-- `authzServerStream.RecvMsg`. -/
def checkedRecvMsg (toRequest : μ → Request) (authCtx : AuthContext) (perm : Permission)
    (store : ACLStore) (underlying : RPC (StreamState ω μ) μ) : RPC (StreamState ω μ) μ := do
  let m ← underlying
  if ¬ (← get).checked then
    modify fun s => { s with checked := true }
    checkAccess store authCtx perm (toRequest m)
  return m

/-- The first `RecvMsg` of the wrapped stream hands out the message if the caller is let
through. -/
theorem checkedRecvMsg_ends {toRequest : μ → Request} {a : AuthContext}
    {perm : Permission} {store : ACLStore} {m : μ} {path : Str}
    (hpath : extractPath (toRequest m) = .ok path) {b : Bool}
    (h : canAccess a path perm store = some b) (w : ω) (rest : List (Except RpcError μ))
    (sent : List Str) :
    Ends (checkedRecvMsg toRequest a perm store recvMsg) ⟨w, .ok m :: rest, false, sent⟩
      (if b then .ok m else .error accessDenied) ⟨w, rest, true, sent⟩ := by
  have hrecv : Ends recvMsg ⟨w, .ok m :: rest, false, sent⟩ (.ok m) ⟨w, rest, false, sent⟩ := rfl
  have hcheck := checkAccess_ends hpath h (⟨w, rest, true, sent⟩ : StreamState ω μ)
  unfold checkedRecvMsg
  refine ends_bind_ok hrecv (ends_bind_ok (ends_get _) (ends_bind_ok (ends_modify _ _) ?_))
  cases b with
  | false => exact ends_bind_error hcheck _
  | true => exact ends_bind_ok hcheck (ends_pure m _)

def grpcAuthZStreamInterceptor (toRequest : μ → Request) (store : ACLStore) (fullMethod : Str)
    (ctx : Ctx) (underlying : RPC (StreamState ω μ) μ)
    (handler : Ctx → RPC (StreamState ω μ) μ → RPC (StreamState ω μ) α) :
    RPC (StreamState ω μ) α :=
  match methodPermission.lookup fullMethod with
  | none =>
      match fromContext ctx with
      | none => throw missingAuthContext
      | some _ => handler ctx underlying
  | some perm =>
      match fromContext ctx with
      | none => throw missingAuthContext
      | some a => do
          modify fun s => { s with checked := false }
          handler ctx (checkedRecvMsg toRequest a perm store underlying)

/-- The handler of a mapped method gets the wrapped stream, with its flag not set. -/
theorem grpcAuthZStreamInterceptor_mapped {toRequest : μ → Request} {store : ACLStore}
    {fullMethod : Str} {perm : Permission} {ctx : Ctx} {a : AuthContext}
    (hperm : methodPermission.lookup fullMethod = some perm) (hauth : fromContext ctx = some a)
    {underlying : RPC (StreamState ω μ) μ}
    {handler : Ctx → RPC (StreamState ω μ) μ → RPC (StreamState ω μ) α}
    {s s' : StreamState ω μ} {r : Except RpcError α}
    (h : Ends (handler ctx (checkedRecvMsg toRequest a perm store underlying))
      { s with checked := false } r s') :
    Ends (grpcAuthZStreamInterceptor toRequest store fullMethod ctx underlying handler) s r s' := by
  unfold grpcAuthZStreamInterceptor
  simp only [hperm, hauth]
  exact ends_bind_ok (ends_modify _ s) h

end

end FileEngine.Server
