import FileEngine.Deployment.Backends

/-!
# Who has written what one reads

Whoever gets something by a download has proved an identity with the read permission on the path
that was checked; and what they get is what was in the storage at the start, or what someone has
uploaded last who had proved an identity with the write permission. The permissions are those at
the time of the calls. The two paths lead to the same address of the storage, but they need not be
spelled alike.
-/

namespace FileEngine.Deployment

open Go Auth Authz Queue

variable {ι σ κ : Type}

/-- The caller has proved an identity with the permission that the entry point asks for. -/
def Permitted (d : Wiring σ) (acl : ACLStore) (call : Server.Call) : Prop :=
  ∃ a, Server.identity d.lib d.verifier call.header = some a ∧
    canAccess a call.checkedPath call.perm acl = some true

/-- No upload to the address was answered without an error. -/
def NoUpload (addr : Str → κ) (k : κ) (log : List (Event ι)) : Prop :=
  ∀ e ∈ log, ∀ path content, e.uploaded = some (path, content) → addr path ≠ k

/-- The content was at the address at the start and no upload there has succeeded since, or it was
uploaded there by a permitted call that was answered without an error, and by none after it. -/
def Written (d : Wiring σ) (addr : Str → κ) (start : κ → Option Str) (log : List (Event ι)) (k : κ)
    (content : Str) : Prop :=
  start k = some content ∧ NoUpload addr k log ∨
    ∃ before acl env md path reply after,
      log = before ++ .served acl env (.uploadObject md path content) (.unary (.ok reply)) ::
        after ∧
      addr path = k ∧ NoUpload addr k after ∧ Permitted d acl (.uploadObject md path content)

/-- What is last uploaded was there at the start, or the last upload has put it there. -/
theorem lastUploaded_eq_some [DecidableEq κ] {addr : Str → κ} {start : κ → Option Str}
    {log : List (Event ι)} {k : κ} {content : Str}
    (h : lastUploaded addr start log k = some content) :
    start k = some content ∧ NoUpload addr k log ∨ ∃ before e path after,
      log = before ++ e :: after ∧ e.uploaded = some (path, content) ∧ addr path = k ∧
        NoUpload addr k after := by
  induction log using List.reverseRecOn with
  | nil => exact Or.inl ⟨h, fun _ he => absurd he List.not_mem_nil⟩
  | append_singleton log e ih =>
    -- an event that leaves the address alone may come at the end
    have hold : lastUploaded addr start log k = some content → NoUpload addr k [e] →
        start k = some content ∧ NoUpload addr k (log ++ [e]) ∨ ∃ before e' path after,
          log ++ [e] = before ++ e' :: after ∧ e'.uploaded = some (path, content) ∧
            addr path = k ∧ NoUpload addr k after := by
      intro h hlast
      have happend : ∀ {after : List (Event ι)}, NoUpload addr k after →
          NoUpload addr k (after ++ [e]) := by
        intro after hafter e' he'
        exact (List.mem_append.mp he').elim (hafter e') (hlast e')
      rcases ih h with ⟨hstart, hnone⟩ | ⟨before, e', path, after, rfl, hup, haddr, hnone⟩
      · exact Or.inl ⟨hstart, happend hnone⟩
      · exact Or.inr ⟨before, e', path, after ++ [e], by simp, hup, haddr, happend hnone⟩
    rw [lastUploaded_append] at h
    cases hup : e.uploaded with
    | none =>
      rw [lastUploaded_none fun e' he' => List.mem_singleton.mp he' ▸ hup] at h
      refine hold h fun e' he' path content' hup' => ?_
      rw [List.mem_singleton.mp he', hup] at hup'
      cases hup'
    | some upload =>
      obtain ⟨path, content'⟩ := upload
      rw [lastUploaded_one hup] at h
      by_cases hk : k = addr path
      · subst hk
        rw [Function.update_self] at h
        cases h
        exact Or.inr ⟨log, e, path, [], rfl, hup, rfl, fun _ he => absurd he List.not_mem_nil⟩
      · rw [Function.update_of_ne hk] at h
        refine hold h fun e' he' path' content'' hup' => ?_
        rw [List.mem_singleton.mp he', hup] at hup'
        cases hup'
        exact Ne.symm hk

section

variable [DecidableEq ι] {d : Wiring σ} {w w' : World ι σ} {log : List (Event ι)}

theorem permitted_of_decision {acl : ACLStore} {call : Server.Call}
    (h : Server.decision d.server acl call = some true) : Permitted d acl call := by
  obtain ⟨a, hid, hcan⟩ := Server.decision_true h
  exact ⟨a, hid, hcan⟩

/-- A call that was not refused was permitted. -/
theorem permitted_of_served {start : World ι σ} {actions : List (Action ι)}
    (hexec : (step d).exec actions start = some (w, log)) {acl : ACLStore} {env : Server.Env}
    {call : Server.Call} {reply : Server.Reply} (hmem : .served acl env call reply ∈ log)
    (hreply : ¬ reply.Refused) : Permitted d acl call := by
  obtain ⟨before, after, rfl⟩ := List.append_of_mem hmem
  obtain ⟨done, a, rest, w₁, w₂, rfl, _, hstep, _⟩ := Step.exec_event (step_single d) hexec
  rcases step_served hstep with hrefused | ⟨hdecision, _, _⟩
  · exact absurd hrefused hreply
  · exact permitted_of_decision hdecision

/-- What is last uploaded at an address has a permitted writer. -/
theorem written_lastUploaded [DecidableEq κ] {addr : Str → κ} {found : κ → Option Str}
    {start : World ι σ} {actions : List (Action ι)}
    (hexec : (step d).exec actions start = some (w, log)) {k : κ} {content : Str}
    (h : lastUploaded addr found log k = some content) : Written d addr found log k content := by
  refine (lastUploaded_eq_some h).imp_right fun ⟨before, e, path, after, hlog, hup, haddr, hnone⟩ =>
    ?_
  have hmem : e ∈ log := by
    rw [hlog]
    exact List.mem_append_right _ List.mem_cons_self
  unfold Event.uploaded at hup
  split at hup
  · cases hup
    refine ⟨before, _, _, _, _, _, after, hlog, haddr, hnone, permitted_of_served hexec hmem ?_⟩
    rintro ⟨e, herror⟩
    cases herror
  · cases hup

/-- A front part of what is last uploaded is a front part of something with a permitted writer. -/
theorem front_written [DecidableEq κ] {addr : Str → κ} {found : κ → Option Str}
    {start : World ι σ} {actions : List (Action ι)}
    (hexec : (step d).exec actions start = some (w, log)) {k : κ} {bytes : Str}
    (h : bytes <+: (lastUploaded addr found log k).getD []) :
    bytes = [] ∨ ∃ content, bytes <+: content ∧ Written d addr found log k content := by
  cases hlast : lastUploaded addr found log k with
  | none =>
    rw [hlast] at h
    exact Or.inl (List.prefix_nil.mp h)
  | some content =>
    rw [hlast] at h
    exact Or.inr ⟨content, h, written_lastUploaded hexec hlast⟩

section

variable [DecidableEq κ] {addr : Str → κ} {found : κ → Option Str} {Unkept : κ → Prop}
  {start : World ι σ} {actions : List (Action ι)} {before after : List (Event ι)}
  {acl : ACLStore} {env : Server.Env}

/-- What a stream has sent, and to whom. -/
theorem Faithful.stream_written (h : Faithful d start actions log addr found Unkept)
    (hexec : (step d).exec actions start = some (w, log)) {md : Option Server.MD} {path : Str}
    {sent : List Str} {result : Except Server.RpcError Unit}
    (hlog : log = before ++ .served acl env (.downloadObject md path) (.stream sent result) ::
      after) (hk : ¬ Unkept (addr path)) :
    sent.flatten = [] ∧ result ≠ .ok () ∨
      Permitted d acl (.downloadObject md path) ∧
        (sent.flatten = [] ∨ ∃ content, sent.flatten <+: content ∧
          Written d addr found before (addr path) content) ∧
        (result = .ok () → Written d addr found before (addr path) sent.flatten) := by
  obtain ⟨hfront, hall⟩ := h.stream before acl env md path sent result after hlog hk
  subst hlog
  obtain ⟨done, a, rest, w₁, w₂, rfl, hdone, hstep, _⟩ := Step.exec_event (step_single d) hexec
  rcases step_served hstep with ⟨rfl, e, rfl⟩ | ⟨hdecision, _, _⟩
  · exact Or.inl ⟨rfl, fun h => by cases h⟩
  · refine Or.inr ⟨permitted_of_decision hdecision, ?_, fun hok => ?_⟩
    · exact front_written hdone hfront
    · exact written_lastUploaded hdone (hall hok)

/-- What was sent over HTTP, and to whom. -/
theorem Faithful.http_written (h : Faithful d start actions log addr found Unkept)
    (hexec : (step d).exec actions start = some (w, log)) {authorization query : List Str}
    {reply : Server.HTTPReply}
    (hlog : log = before ++ .served acl env (.httpDownload authorization query) (.http reply) ::
      after) (hk : ¬ Unkept (addr (Server.getFirst query))) (hcode : reply.code = 200) :
    Permitted d acl (.httpDownload authorization query) ∧
      (reply.body = [] ∨ ∃ content, reply.body <+: content ∧
        Written d addr found before (addr (Server.getFirst query)) content) ∧
      ∃ r, Opened d start actions before (Server.getFirst query) r ∧
        reply.body = (r (32 * 1024)).bytes ∧
        ((r (32 * 1024)).err = .eof →
          Written d addr found before (addr (Server.getFirst query)) reply.body) := by
  obtain ⟨r, hopened, hbody, hfront, hall⟩ :=
    h.http before acl env authorization query reply after hlog hk hcode
  have hmem : .served acl env (.httpDownload authorization query) (.http reply) ∈ log := by
    rw [hlog]
    exact List.mem_append_right _ List.mem_cons_self
  have hpermitted := permitted_of_served hexec hmem fun hrefused => hrefused hcode
  subst hlog
  obtain ⟨done, a, rest, w₁, w₂, rfl, hdone, _, _⟩ := Step.exec_event (step_single d) hexec
  exact ⟨hpermitted, front_written hdone hfront, r, hopened, hbody,
    fun heof => written_lastUploaded hdone (hall heof)⟩

end

end

variable [DecidableEq ι] [DecidableEq κ]

/-- **What a caller gets was written by someone who might write it, and the caller might read it.**
In every run, on every backend that keeps its contents: whoever gets some bytes by a download has
the read permission, and the bytes are a front part of the content that was last uploaded there,
with a permitted writer, or that was there at the start. It is all of it if a stream ends without
an error; over HTTP it is what was read, and all of it if the reader has come to the end. -/
theorem download_provenance (lib : JwtLib) (verifier : JWTVerifier) (foldRune : Nat → Nat)
    (backend : Storage σ) (c : Contents backend κ) (store : σ) (acl : ACLStore)
    (actions : List (Action ι)) (w : World ι σ) (log : List (Event ι))
    (hexec : (step (jsonWiring lib verifier backend foldRune)).exec actions
      (World.init store acl) = some (w, log)) :
    let d := jsonWiring lib verifier backend foldRune
    (∀ before acl' env md path sent result after,
      log = before ++ .served acl' env (.downloadObject md path) (.stream sent result) :: after →
      ¬ c.Unkept (c.addr path) → sent.flatten = [] ∧ result ≠ .ok () ∨
        Permitted d acl' (.downloadObject md path) ∧
          (sent.flatten = [] ∨ ∃ content, sent.flatten <+: content ∧
            Written d c.addr (c.kept store) before (c.addr path) content) ∧
          (result = .ok () → Written d c.addr (c.kept store) before (c.addr path) sent.flatten)) ∧
    ∀ before acl' env authorization query reply after,
      log = before ++ .served acl' env (.httpDownload authorization query) (.http reply) :: after →
      ¬ c.Unkept (c.addr (Server.getFirst query)) → reply.code = 200 →
        Permitted d acl' (.httpDownload authorization query) ∧
          (reply.body = [] ∨ ∃ content, reply.body <+: content ∧
            Written d c.addr (c.kept store) before (c.addr (Server.getFirst query)) content) ∧
          ∃ r, Opened d (World.init store acl) actions before (Server.getFirst query) r ∧
            reply.body = (r (32 * 1024)).bytes ∧
            ((r (32 * 1024)).err = .eof → Written d c.addr (c.kept store) before
              (c.addr (Server.getFirst query)) reply.body) := by
  intro d
  have hd : FoldersOnly d := foldersOnly_json lib verifier backend foldRune
  have hfaithful := faithful_exec (d := d) c hd hexec
  exact ⟨fun _ _ _ _ _ _ _ _ hlog hk => hfaithful.stream_written hexec hlog hk,
    fun _ _ _ _ _ _ _ hlog hk hcode => hfaithful.http_written hexec hlog hk hcode⟩

/-! ## A small run -/

/-- A download over HTTP, with what was asked and what was sent. -/
def Event.fetched : Event ι → Option (List Str × Nat × Str)
  | .served _ _ (.httpDownload _ query) (.http reply) => some (query, reply.code, reply.body)
  | _ => none

omit [DecidableEq ι] in
theorem fetched_split {log : List (Event ι)} {query : List Str} {code : Nat} {body : Str}
    (h : (query, code, body) ∈ log.filterMap Event.fetched) :
    ∃ before acl env authorization reply after, log = before ++
        .served acl env (.httpDownload authorization query) (.http reply) :: after ∧
      reply.code = code ∧ reply.body = body := by
  obtain ⟨e, he, hfetched⟩ := List.mem_filterMap.mp h
  obtain ⟨before, after, rfl⟩ := List.append_of_mem he
  unfold Event.fetched at hfetched
  split at hfetched
  · cases hfetched
    exact ⟨before, _, _, _, _, after, rfl, rfl, rfl⟩
  · cases hfetched

open Os Local in
/-- What was downloaded is what the user `7` has uploaded. -/
theorem download_provenance_run :
    let s : LocalStorage := ⟨str "/srv"⟩
    let d := jsonWiring sampleLib Server.demo.verifier
      (s.exposed (fun _ => str "failed") fun _ => 0) id
    let start := ⟨FS.empty, secondFails (.smooth []) ⟨some (0, .busy), [], []⟩⟩
    ∃ w log before content, (step d).exec fileRun (World.init start demoACL) = some (w, log) ∧
      ([str "/a/f"], 200, str "one") ∈ log.filterMap Event.fetched ∧ str "one" <+: content ∧
      Written d (fun path => locate (s.full path)) (fileAt FS.empty) (before : List (Event Unit))
        (locate (str "/srv/a/f")) content := by
  intro s d start
  have hrun : ((step d).exec fileRun (World.init start demoACL)).map (fun out =>
      out.2.filterMap Event.fetched) = some [([str "/a/f"], 200, str "one")] := by
    decide +kernel
  obtain ⟨⟨w, log⟩, hexec, hfetched⟩ := Option.map_eq_some_iff.mp hrun
  have hmem : ([str "/a/f"], 200, str "one") ∈ log.filterMap Event.fetched := by
    rw [hfetched]
    exact List.mem_singleton_self _
  obtain ⟨before, acl, env, authorization, reply, after, hlog, hcode, hbody⟩ := fetched_split hmem
  obtain ⟨_, hempty | ⟨content, hfront, hwritten⟩, _⟩ :=
    (download_provenance sampleLib Server.demo.verifier id _ (s.contents _ _) start demoACL
      fileRun w log hexec).2 before acl env authorization [str "/a/f"] reply after hlog
      (show ¬ TempName (locate (str "/srv/a/f")) by decide) hcode
  · rw [hbody] at hempty
    cases hempty
  · exact ⟨w, log, before, content, hexec, hmem, hbody ▸ hfront, hwritten⟩

end FileEngine.Deployment
