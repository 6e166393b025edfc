import FileEngine.Auth.InMemory
import FileEngine.Server.Mediation

/-!
# The messages of a stream

A handler of a stream may call `RecvMsg` as often as it likes, also after an error. The
wrapped stream checks the first message that the underlying stream delivers and no
other, and its flag is set before that check is made. So a call hands out a message that
the caller has no right to exactly if the message is not the first one
(`stream_authorized_iff`), and that also if the first one was refused.
-/

namespace FileEngine.Server

open Go Auth Authz

/-- The path of the request can be extracted, and the caller may access it. -/
def Granted (store : ACLStore) (a : AuthContext) (perm : Permission) (req : Request) : Prop :=
  ∃ path, extractPath req = .ok path ∧ canAccess a path perm store = some true

section

variable {ω μ : Type}

theorem checkAccess_granted {store : ACLStore} {a : AuthContext} {perm : Permission} {req : Request}
    (h : Granted store a perm req) (s : ω) : Ends (checkAccess store a perm req) s (.ok ()) s := by
  obtain ⟨path, hpath, hcan⟩ := h
  exact checkAccess_ends hpath hcan s

theorem checkAccess_not_granted {store : ACLStore} {a : AuthContext} {perm : Permission}
    {req : Request} (h : ¬ Granted store a perm req) (s : ω) :
    ∃ e, Ends (checkAccess store a perm req) s (.error e) s := by
  cases hpath : extractPath req with
  | error message =>
    refine ⟨cannotExtractPath, ?_⟩
    unfold checkAccess
    simp only [hpath]
    exact ends_throw _ s
  | ok path =>
    have hcan := canAccess_rooted (isAbs_extractPath hpath) a perm store
    cases hb : decideOn a (chain path) perm store with
    | true => exact absurd ⟨path, hpath, hb ▸ hcan⟩ h
    | false => exact ⟨accessDenied, checkAccess_ends hpath (hb ▸ hcan) s⟩

/-! ## One call -/

section

variable {toRequest : μ → Request} {a : AuthContext} {perm : Permission} {store : ACLStore}

theorem checkedRecvMsg_error {s s' : StreamState ω μ} {e : RpcError}
    (h : Ends recvMsg s (.error e) s') :
    Ends (checkedRecvMsg toRequest a perm store recvMsg) s (.error e) s' :=
  ends_bind_error h _

/-- Once the flag is set, every message is handed out. -/
theorem checkedRecvMsg_later (m : μ) (w : ω) (rest : List (Except RpcError μ)) (sent : List Str) :
    Ends (checkedRecvMsg toRequest a perm store recvMsg) ⟨w, .ok m :: rest, true, sent⟩ (.ok m)
      ⟨w, rest, true, sent⟩ :=
  rfl

/-- The first message sets the flag, whatever the check says. -/
theorem checkedRecvMsg_first (m : μ) (w : ω) (rest : List (Except RpcError μ)) (sent : List Str) :
    (Granted store a perm (toRequest m) →
      Ends (checkedRecvMsg toRequest a perm store recvMsg) ⟨w, .ok m :: rest, false, sent⟩ (.ok m)
        ⟨w, rest, true, sent⟩) ∧
    (¬ Granted store a perm (toRequest m) → ∃ e,
      Ends (checkedRecvMsg toRequest a perm store recvMsg) ⟨w, .ok m :: rest, false, sent⟩
        (.error e) ⟨w, rest, true, sent⟩) := by
  have hrecv : Ends recvMsg ⟨w, .ok m :: rest, false, sent⟩ (.ok m) ⟨w, rest, false, sent⟩ := rfl
  constructor
  · intro h
    have hcheck := checkAccess_granted h (⟨w, rest, true, sent⟩ : StreamState ω μ)
    exact ends_bind_ok hrecv (ends_bind_ok (ends_get _) (ends_bind_ok (ends_modify _ _)
      (ends_bind_ok hcheck (ends_pure m _))))
  · intro h
    obtain ⟨e, hcheck⟩ := checkAccess_not_granted h (⟨w, rest, true, sent⟩ : StreamState ω μ)
    exact ⟨e, ends_bind_ok hrecv (ends_bind_ok (ends_get _) (ends_bind_ok (ends_modify _ _)
      (ends_bind_error hcheck _)))⟩

end

/-! ## All calls of a handler -/

/-- A handler that calls `RecvMsg` so often and goes on after an error. -/
def recvMsgs (recvMsg : RPC (StreamState ω μ) μ) :
    Nat → RPC (StreamState ω μ) (List (Except RpcError μ))
  | 0 => return []
  | n + 1 => do
      let result ← observe recvMsg
      return result :: (← recvMsgs recvMsg n)

/-- The messages that the underlying stream delivers in so many calls. -/
def delivered (inbound : List (Except RpcError μ)) (calls : Nat) : List μ :=
  (inbound.take calls).filterMap Except.toOption

theorem delivered_nil (calls : Nat) : delivered ([] : List (Except RpcError μ)) calls = [] := by
  simp [delivered]

/-- The messages in the results of some calls. -/
def handedOut (results : List (Except RpcError μ)) : List μ := results.filterMap Except.toOption

theorem mem_handedOut {results : List (Except RpcError μ)} {m : μ} :
    m ∈ handedOut results ↔ .ok m ∈ results := by
  unfold handedOut
  rw [List.mem_filterMap]
  constructor
  · rintro ⟨r, hr, hm⟩
    cases r with
    | error e => cases hm
    | ok m' => exact Option.some.inj hm ▸ hr
  · exact fun h => ⟨_, h, rfl⟩

/-- The calls go on after the first one, whatever it returned. -/
theorem recvMsgs_succ {recv : RPC (StreamState ω μ) μ} {n : Nat} {s s' s'' : StreamState ω μ}
    {r : Except RpcError μ} {rs : List (Except RpcError μ)} (h : Ends recv s r s')
    (hs : Ends (recvMsgs recv n) s' (.ok rs) s'') :
    Ends (recvMsgs recv (n + 1)) s (.ok (r :: rs)) s'' :=
  ends_bind_ok (ends_observe h) (ends_bind_ok hs (ends_pure _ _))

section

variable (toRequest : μ → Request) (a : AuthContext) (perm : Permission) (store : ACLStore)

/-- After the first message, all that is delivered is handed out. -/
theorem recvMsgs_checked (n : Nat) (w : ω) (inbound : List (Except RpcError μ)) (sent : List Str) :
    ∃ results s', Ends (recvMsgs (checkedRecvMsg toRequest a perm store recvMsg) n)
        ⟨w, inbound, true, sent⟩ (.ok results) s' ∧
      handedOut results = delivered inbound n := by
  induction n generalizing inbound with
  | zero => exact ⟨[], _, ends_pure _ _, by simp [handedOut, delivered]⟩
  | succ n ih =>
    match inbound with
    | [] =>
      obtain ⟨results, s', hend, hout⟩ := ih []
      rw [delivered_nil] at hout ⊢
      exact ⟨_, s', recvMsgs_succ (checkedRecvMsg_error rfl) hend, hout⟩
    | .error e :: rest =>
      obtain ⟨results, s', hend, hout⟩ := ih rest
      exact ⟨_, s', recvMsgs_succ (checkedRecvMsg_error rfl) hend, hout⟩
    | .ok m :: rest =>
      obtain ⟨results, s', hend, hout⟩ := ih rest
      exact ⟨_, s', recvMsgs_succ (checkedRecvMsg_later m w rest sent) hend, congrArg (m :: ·) hout⟩

/-- Of a whole stream, only the first message may be held back. -/
theorem recvMsgs_unchecked (n : Nat) (w : ω) (inbound : List (Except RpcError μ))
    (sent : List Str) :
    ∃ results s', Ends (recvMsgs (checkedRecvMsg toRequest a perm store recvMsg) n)
        ⟨w, inbound, false, sent⟩ (.ok results) s' ∧
      ((∀ m ∈ (delivered inbound n).head?, Granted store a perm (toRequest m)) ∧
          handedOut results = delivered inbound n ∨
        handedOut results = (delivered inbound n).tail) := by
  induction n generalizing inbound with
  | zero => exact ⟨[], _, ends_pure _ _, Or.inr (by simp [handedOut, delivered])⟩
  | succ n ih =>
    match inbound with
    | [] =>
      obtain ⟨results, s', hend, hout⟩ := ih []
      rw [delivered_nil] at hout ⊢
      exact ⟨_, s', recvMsgs_succ (checkedRecvMsg_error rfl) hend, hout⟩
    | .error e :: rest =>
      obtain ⟨results, s', hend, hout⟩ := ih rest
      exact ⟨_, s', recvMsgs_succ (checkedRecvMsg_error rfl) hend, hout⟩
    | .ok m :: rest =>
      -- from here on the flag is set
      obtain ⟨results, s', hend, hout⟩ := recvMsgs_checked toRequest a perm store n w rest sent
      by_cases hm : Granted store a perm (toRequest m)
      · have hfirst := (checkedRecvMsg_first m w rest sent).1 hm
        refine ⟨_, s', recvMsgs_succ hfirst hend, Or.inl ⟨?_, congrArg (m :: ·) hout⟩⟩
        rintro m' ⟨rfl⟩
        exact hm
      · obtain ⟨e, hfirst⟩ := (checkedRecvMsg_first m w rest sent).2 hm
        exact ⟨_, s', recvMsgs_succ hfirst hend, Or.inr hout⟩

end

/-- **Streams.** Of all calls of `RecvMsg` on a stream of a mapped method, those that
return a message return one that the caller may access, exactly if the caller may access
every message that the underlying stream delivers after the first one. -/
theorem stream_authorized_iff (toRequest : μ → Request) (store : ACLStore) (fullMethod : Str)
    (perm : Permission) (ctx : Ctx) (a : AuthContext)
    (hperm : methodPermission.lookup fullMethod = some perm) (hauth : fromContext ctx = some a)
    (calls : Nat) (s : StreamState ω μ) :
    ∃ results s', Ends (grpcAuthZStreamInterceptor toRequest store fullMethod ctx recvMsg
        fun _ recvMsg => recvMsgs recvMsg calls) s (.ok results) s' ∧
      ((∀ m, .ok m ∈ results → Granted store a perm (toRequest m)) ↔
        ∀ m ∈ (delivered s.inbound calls).tail, Granted store a perm (toRequest m)) := by
  obtain ⟨results, s', hend, hout⟩ :=
    recvMsgs_unchecked toRequest a perm store calls s.world s.inbound s.sent
  refine ⟨results, s', grpcAuthZStreamInterceptor_mapped hperm hauth hend, ?_⟩
  simp only [← mem_handedOut]
  rcases hout with ⟨hhead, hout⟩ | hout
  · rw [hout]
    refine ⟨fun h m hm => h m (List.mem_of_mem_tail hm), fun h m hm => ?_⟩
    cases hms : delivered s.inbound calls with
    | nil => rw [hms] at hm; cases hm
    | cons first rest =>
      rw [hms] at hm hhead h
      rcases List.mem_cons.mp hm with rfl | hm
      · exact hhead m rfl
      · exact h m hm
  · rw [hout]

end

/-- Two download requests on one stream, by a caller without any rights: the first one is
refused, and the second one is handed out. -/
theorem refused_stream_goes_on :
    let user : AuthContext := ⟨str "7", []⟩
    methodPermission.lookup methodDownloadObject = some permRead ∧
    ¬ Granted noACLs user permRead (.downloadObject (str "/b")) ∧
    Ends (grpcAuthZStreamInterceptor Request.downloadObject noACLs methodDownloadObject
        ⟨none, some user⟩ recvMsg fun _ recvMsg => recvMsgs recvMsg 2)
      (⟨(), [.ok (str "/a"), .ok (str "/b")], false, []⟩ : StreamState Unit Str)
      (.ok [.error accessDenied, .ok (str "/b")]) ⟨(), [], true, []⟩ := by
  have hpath : ∀ p ∈ [str "/a", str "/b"], extractPath (.downloadObject p) = .ok p ∧
      canAccess ⟨str "7", []⟩ p permRead noACLs = some false := by
    simp only [extractPath, normalize_eq]
    decide
  obtain ⟨ha, hdenied⟩ := hpath (str "/a") (by simp)
  refine ⟨lookup_downloadObject, ?_, ?_⟩
  · rintro ⟨path, hb, hcan⟩
    obtain ⟨hb', hdenied'⟩ := hpath (str "/b") (by simp)
    cases hb.symm.trans hb'
    cases hcan.symm.trans hdenied'
  · have hfirst := checkedRecvMsg_ends ha hdenied () [.ok (str "/b")] []
    exact grpcAuthZStreamInterceptor_mapped lookup_downloadObject rfl (recvMsgs_succ hfirst
      (recvMsgs_succ (checkedRecvMsg_later _ _ _ _) (ends_pure _ _)))

/-- The caller may read `/b` and not `/a`: the first message is refused, and the second one is
handed out. -/
theorem stream_authorized_later :
    let store := (onlyAt (str "/b") (str "7")).asACLStore
    let user : AuthContext := ⟨str "7", []⟩
    let results : List (Except RpcError Str) :=
      [.error accessDenied, .ok (str "/b"), .error (.err (str "EOF"))]
    (∃ s', Ends (grpcAuthZStreamInterceptor Request.downloadObject store methodDownloadObject
        ⟨none, some user⟩ recvMsg fun _ recvMsg => recvMsgs recvMsg 3)
      (⟨(), [.ok (str "/a"), .ok (str "/b"), .error (.err (str "EOF"))], false, []⟩ :
        StreamState Unit Str) (.ok results) s') ∧
      ∀ m, .ok m ∈ results → Granted store user permRead (.downloadObject m) := by
  intro store user results
  have hpath : ∀ p ∈ [str "/a", str "/b"], extractPath (.downloadObject p) = .ok p ∧
      canAccess user p permRead store = some (decide (p = str "/b")) := by
    simp only [extractPath, normalize_eq]
    decide
  obtain ⟨ha, hdenied⟩ := hpath (str "/a") (by simp)
  obtain ⟨hb, hgranted⟩ := hpath (str "/b") (by simp)
  -- what the handler sees
  have hfirst := checkedRecvMsg_ends ha hdenied () [.ok (str "/b"), .error (.err (str "EOF"))] []
  have hseen : Ends (grpcAuthZStreamInterceptor Request.downloadObject store methodDownloadObject
        ⟨none, some user⟩ recvMsg fun _ recvMsg => recvMsgs recvMsg 3)
      (⟨(), [.ok (str "/a"), .ok (str "/b"), .error (.err (str "EOF"))], false, []⟩ :
        StreamState Unit Str) (.ok results) ⟨(), [], true, []⟩ :=
    grpcAuthZStreamInterceptor_mapped lookup_downloadObject rfl (recvMsgs_succ hfirst
      (recvMsgs_succ (checkedRecvMsg_later _ _ _ _) (recvMsgs_succ (checkedRecvMsg_error rfl)
        (ends_pure _ _))))
  obtain ⟨results', s', hend, hiff⟩ := stream_authorized_iff Request.downloadObject store
    methodDownloadObject permRead ⟨none, some user⟩ user lookup_downloadObject rfl 3
    (⟨(), [.ok (str "/a"), .ok (str "/b"), .error (.err (str "EOF"))], false, []⟩ :
      StreamState Unit Str)
  obtain ⟨hresults, _⟩ := hseen.unique hend
  cases hresults
  refine ⟨⟨s', hend⟩, hiff.mpr fun m hm => ?_⟩
  obtain rfl : m = str "/b" := List.mem_singleton.mp hm
  exact ⟨_, hb, hgranted⟩

end FileEngine.Server
