import FileEngine.Deployment.Payloads
import FileEngine.Storage.Contents

/-!
# Downloads give what was last uploaded

Uploads and downloads through both servers, folder tasks of the workers and changes to the ACL
store run in any order, and the operations of the storage may fail. On a backend that keeps its
contents (`Contents`), what stands at an address is at every moment what the last upload put
there that was answered without an error (`kept_lastUploaded`), and that is what a download
gives.
-/

namespace FileEngine.Deployment

open Go Auth Authz Queue

variable {ι σ κ : Type}

/-- An upload that was answered without an error: its path and its content. -/
def Event.uploaded : Event ι → Option (Str × Str)
  | .served _ _ (.uploadObject _ path content) (.unary (.ok _)) => some (path, content)
  | _ => none

/-- What is to be found at every address after the uploads of a log. -/
def lastUploaded [DecidableEq κ] (addr : Str → κ) (start : κ → Option Str)
    (log : List (Event ι)) : κ → Option Str :=
  (log.filterMap Event.uploaded).foldl
    (fun found (path, content) => Function.update found (addr path) (some content)) start

section

variable [DecidableEq κ] {addr : Str → κ} {start : κ → Option Str}

theorem lastUploaded_append (log events : List (Event ι)) :
    lastUploaded addr start (log ++ events) =
      lastUploaded addr (lastUploaded addr start log) events := by
  simp [lastUploaded]

theorem lastUploaded_none {events : List (Event ι)} (h : ∀ e ∈ events, e.uploaded = none) :
    lastUploaded addr start events = start := by
  rw [lastUploaded, List.filterMap_eq_nil_iff.mpr h]
  rfl

theorem lastUploaded_one {e : Event ι} {path content : Str}
    (h : e.uploaded = some (path, content)) :
    lastUploaded addr start [e] = Function.update start (addr path) (some content) := by
  simp [lastUploaded, h]

/-- Only the start at the address itself matters. -/
theorem lastUploaded_congr {start' : κ → Option Str} {k : κ} (h : start k = start' k)
    (log : List (Event ι)) :
    lastUploaded addr start log k = lastUploaded addr start' log k := by
  unfold lastUploaded
  induction log.filterMap Event.uploaded generalizing start start' with
  | nil => exact h
  | cons u us ih =>
    refine ih ?_
    show Function.update start (addr u.1) (some u.2) k = Function.update start' (addr u.1) _ k
    by_cases hk : k = addr u.1
    · rw [hk, Function.update_self, Function.update_self]
    · rw [Function.update_of_ne hk, Function.update_of_ne hk, h]

end

/-! ## What a download gives -/

/-- What is sent of an opened object. -/
theorem streamed_spec (env : Server.Env) (reads : Reads) :
    (Server.streamed env reads).1.flatten <+: reads.bytes ∧
      ((Server.streamed env reads).2 = .ok () →
        reads.err = .eof ∧ (Server.streamed env reads).1.flatten = reads.bytes) := by
  let chunks := Server.nonEmpty (reads.chunks ++ [reads.last])
  have hbytes : chunks.flatten = reads.bytes := by
    rw [Server.flatten_nonEmpty]
    simp [Reads.bytes]
  rw [← hbytes]
  constructor
  · obtain ⟨rest, hrest⟩ := Server.deliver_front env.sendErr 0 chunks
    refine ⟨rest.flatten, ?_⟩
    rw [← List.flatten_append]
    exact congrArg List.flatten hrest
  · intro hok
    have hnone : (Server.deliver env.sendErr 0 chunks).2 = none ∧ reads.err = .eof := by
      simp only [Server.streamed] at hok
      split at hok
      · cases hok
      · cases hok
      · rename_i hdeliver heof
        exact ⟨hdeliver, heof⟩
    exact ⟨hnone.2, congrArg List.flatten (Server.deliver_eq env.sendErr 0 hnone.1)⟩

section

variable {d : Wiring σ} (c : Contents d.backend κ)

/-- The reply of a download that is let through. -/
theorem download_faithful (w : World ι σ) (env : Server.Env) (md : Option Server.MD) (path : Str)
    {sent : List Str} {result : Except Server.RpcError Unit}
    (h : .stream sent result = (Server.carryOut d.server env (.downloadObject md path)
      w.server).1) :
    sent.flatten <+: (c.kept w.store (c.addr path)).getD [] ∧
      (result = .ok () → c.kept w.store (c.addr path) = some sent.flatten) := by
  simp only [Server.carryOut, World.server, Wiring.server] at h
  cases hopen : (d.backend.open_ path w.store).1 with
  | error e =>
    simp only [hopen] at h
    cases h
    exact ⟨List.nil_prefix, fun hok => by cases hok⟩
  | ok r =>
    simp only [hopen] at h
    cases h
    obtain ⟨hfront, hall⟩ := streamed_spec env (r (64 * 1024))
    refine ⟨hfront.trans (c.open_front path w.store r _ hopen), fun hok => ?_⟩
    obtain ⟨heof, hbytes⟩ := hall hok
    rw [hbytes]
    exact c.open_eof path w.store r _ hopen heof

/-- Over HTTP, what was read of the object is sent, whatever has ended the reading. -/
theorem httpDownload_faithful (w : World ι σ) (env : Server.Env) (authorization query : List Str)
    {reply : Server.HTTPReply} (hcode : reply.code = 200)
    (h : .http reply = (Server.carryOut d.server env (.httpDownload authorization query)
      w.server).1) :
    ∃ r, (d.backend.open_ (Server.getFirst query) w.store).1 = .ok r ∧
      reply.body = (r (32 * 1024)).bytes ∧
      reply.body <+: (c.kept w.store (c.addr (Server.getFirst query))).getD [] ∧
      ((r (32 * 1024)).err = .eof →
        c.kept w.store (c.addr (Server.getFirst query)) = some reply.body) := by
  cases hopen : d.backend.open_ (Server.getFirst query) w.store with
  | mk opened storage =>
    cases opened with
    | error e =>
      simp only [Server.carryOut, Server.served, World.server, Wiring.server, hopen] at h
      cases h
      cases hcode
    | ok r =>
      simp only [Server.carryOut, Server.served, World.server, Wiring.server, hopen] at h
      cases h
      have hok := congrArg Prod.fst hopen
      exact ⟨r, rfl, rfl, c.open_front _ w.store r _ hok, c.open_eof _ w.store r _ hok⟩

end

/-! ## What a step does to the contents -/

section

variable [DecidableEq κ] {d : Wiring σ} (c : Contents d.backend κ)

/-- A call that is let through does to the contents what its reply says. -/
theorem after_kept (w : World ι σ) (env : Server.Env) (call : Server.Call) {k : κ}
    (hk : ¬ c.Unkept k) :
    c.kept (w.after d env call).store k = lastUploaded c.addr (c.kept w.store)
      [(.served w.acl env call (Server.carryOut d.server env call w.server).1 : Event ι)] k := by
  cases call with
  | createFolder md parentPath folderName requestedBy => rfl
  | listObjects md listPrefix => exact congrFun (c.list_keeps listPrefix w.store) k
  | downloadObject md path => exact congrFun (c.open_keeps path w.store) k
  | httpDownload authorization query =>
    exact congrFun (c.open_keeps (Server.getFirst query) w.store) k
  | uploadObject md path content =>
    have hstore : (w.after d env (.uploadObject md path content)).store =
      (d.backend.atomicWrite path (newReader content) w.store).2 := rfl
    have hreply : (Server.carryOut d.server env (.uploadObject md path content) w.server).1 =
      Server.replyWith (fun _ => .uploadObject true)
        (d.backend.atomicWrite path (newReader content) w.store).1 := rfl
    have hok := c.write_ok path content w.store
    have hkeeps := c.write_keeps path content w.store k hk
    rw [hstore, hreply]
    cases hresult : (d.backend.atomicWrite path (newReader content) w.store).1 with
    | error e =>
      rw [hresult] at hkeeps
      exact hkeeps fun _ => nofun
    | ok u =>
      show _ = Function.update (c.kept w.store) (c.addr path) (some content) k
      by_cases hpath : k = c.addr path
      · subst hpath
        rw [hok hk hresult, Function.update_self]
      · rw [hkeeps fun he => absurd he hpath, Function.update_of_ne hpath]

variable [DecidableEq ι]

/-- One step, if the workers hold nothing but folder tasks. -/
theorem step_kept {w w' : World ι σ} {a : Action ι} {events : List (Event ι)}
    (hstep : step d w a = some (w', events))
    (htasks : ∀ i k task, w.worker i = .holding k task → ∃ f : Folder, task = f.task) {k : κ}
    (hk : ¬ c.Unkept k) :
    c.kept w'.store k = lastUploaded c.addr (c.kept w.store) events k := by
  cases a with
  | call env call =>
    by_cases hd : Server.decision d.server w.acl call = some true
    · cases (step_letThrough hd env).symm.trans hstep
      exact after_kept c w env call hk
    · rcases step_turnedAway hd env with hsame | ⟨reply, hrefused, hsame⟩
      · cases hsame.symm.trans hstep
        rfl
      · cases hsame.symm.trans hstep
        rw [lastUploaded_none]
        intro e he
        obtain rfl := List.mem_singleton.mp he
        unfold Event.uploaded
        split
        · rename_i heq
          cases heq
          obtain ⟨e, herror⟩ := hrefused
          cases herror
        · rfl
  | acl store =>
    cases hstep
    rfl
  | turn t =>
    obtain ⟨⟨tasks, events'⟩, hturn, heq⟩ := Option.map_eq_some_iff.mp hstep
    cases heq
    have hnone : ∀ e ∈ events'.map (Event.task (ι := ι)), e.uploaded = none := by
      intro e he
      obtain ⟨x, _, rfl⟩ := List.mem_map.mp he
      rfl
    rw [lastUploaded_none hnone]
    cases turned_of_step hturn with
    | aside hstore _ _ => exact congrArg (c.kept · k) hstore
    | completed outcome hi => rfl
    | processed hi =>
      obtain ⟨f, rfl⟩ := htasks _ _ _ hi
      rcases process_folderTask d.backend f w.store with hprocess | hprocess
      · exact congrArg (fun out => c.kept out.2 k) hprocess
      · refine (congrArg (fun out => c.kept out.2 k) hprocess).trans ?_
        exact c.createFolder_keeps _ _ _ hk

/-! ## Runs -/

/-- **At every address stands what was last uploaded.** -/
theorem kept_lastUploaded (hd : FoldersOnly d) {store : σ} {acl : ACLStore}
    {actions : List (Action ι)} {w : World ι σ} {log : List (Event ι)}
    (hexec : (step d).exec actions (World.init store acl) = some (w, log)) {k : κ}
    (hk : ¬ c.Unkept k) :
    c.kept w.store k = lastUploaded c.addr (c.kept store) log k := by
  -- the tasks that the workers hold are known from the run so far
  refine Step.exec_invariant_of_run
    (fun w log => c.kept w.store k = lastUploaded c.addr (c.kept store) log k)
    (fun done a w log w' events hdone hkept hstep => ?_) rfl hexec
  have htasks : ∀ i n task, w.worker i = .holding n task → ∃ f : Folder, task = f.task := by
    intro i n task hholding
    obtain ⟨f, _, htask⟩ := holding_task hd hdone hholding
    exact ⟨f, htask⟩
  rw [lastUploaded_append, step_kept c hstep htasks hk]
  exact lastUploaded_congr hkept events

/-- The run of `actions` has reported the events `before` when the path is opened, and gets the
reader `r` for it. -/
def Opened (d : Wiring σ) (start : World ι σ) (actions : List (Action ι))
    (before : List (Event ι)) (path : Str) (r : Reader) : Prop :=
  ∃ done rest w, actions = done ++ rest ∧ (step d).exec done start = some (w, before) ∧
    (d.backend.open_ path w.store).1 = .ok r

/-- What callers get by the downloads of a run is what its log says to be there. A stream that
ends without an error has sent all of it. If reading or sending breaks off, a front part was sent.
Over HTTP the caller is not told: what was read is sent, and that is all of it if the reader has
come to the end. -/
structure Faithful (d : Wiring σ) (world : World ι σ) (actions : List (Action ι))
    (log : List (Event ι)) (addr : Str → κ) (start : κ → Option Str) (Unkept : κ → Prop) :
    Prop where
  stream : ∀ before acl env md path sent result after,
    log = before ++ .served acl env (.downloadObject md path) (.stream sent result) :: after →
    ¬ Unkept (addr path) →
    sent.flatten <+: (lastUploaded addr start before (addr path)).getD [] ∧
      (result = .ok () → lastUploaded addr start before (addr path) = some sent.flatten)
  http : ∀ before acl env authorization query reply after,
    log = before ++ .served acl env (.httpDownload authorization query) (.http reply) :: after →
    ¬ Unkept (addr (Server.getFirst query)) → reply.code = 200 →
    ∃ r, Opened d world actions before (Server.getFirst query) r ∧
      reply.body = (r (32 * 1024)).bytes ∧
      reply.body <+: (lastUploaded addr start before (addr (Server.getFirst query))).getD [] ∧
      ((r (32 * 1024)).err = .eof →
        lastUploaded addr start before (addr (Server.getFirst query)) = some reply.body)

/-- A call that was answered was let through or refused. -/
theorem step_served {w w' : World ι σ} {a : Action ι} {acl : ACLStore} {env : Server.Env}
    {call : Server.Call} {reply : Server.Reply}
    (hstep : step d w a = some (w', [.served acl env call reply])) :
    reply.Refused ∨ Server.decision d.server acl call = some true ∧ acl = w.acl ∧
      reply = (Server.carryOut d.server env call w.server).1 := by
  cases a with
  | call env' call' =>
    by_cases hd : Server.decision d.server w.acl call' = some true
    · cases (step_letThrough hd env').symm.trans hstep
      exact Or.inr ⟨hd, rfl, rfl⟩
    · rcases step_turnedAway hd env' with hsame | ⟨reply', hrefused, hsame⟩
      · cases hsame.symm.trans hstep
      · cases hsame.symm.trans hstep
        exact Or.inl hrefused
  | acl store => cases hstep
  | turn t =>
    obtain ⟨⟨tasks, events⟩, hturn, heq⟩ := Option.map_eq_some_iff.mp hstep
    obtain ⟨_, hevents⟩ := Prod.mk.inj heq
    obtain ⟨e, _, he⟩ := List.map_eq_singleton_iff.mp hevents
    cases he

/-- **Downloads are faithful** in every run. -/
theorem faithful_exec (hd : FoldersOnly d) {store : σ} {acl : ACLStore}
    {actions : List (Action ι)} {w : World ι σ} {log : List (Event ι)}
    (hexec : (step d).exec actions (World.init store acl) = some (w, log)) :
    Faithful d (World.init store acl) actions log c.addr (c.kept store) c.Unkept := by
  constructor
  · rintro before acl' env md path sent result after rfl hk
    obtain ⟨done, a, rest, w₁, w₂, rfl, hdone, hstep, _⟩ := Step.exec_event (step_single d) hexec
    rw [← kept_lastUploaded c hd hdone hk]
    rcases step_served hstep with ⟨rfl, e, rfl⟩ | ⟨_, _, hreply⟩
    · exact ⟨List.nil_prefix, nofun⟩
    · exact download_faithful c w₁ env md path hreply
  · rintro before acl' env authorization query reply after rfl hk hcode
    obtain ⟨done, a, rest, w₁, w₂, rfl, hdone, hstep, _⟩ := Step.exec_event (step_single d) hexec
    rw [← kept_lastUploaded c hd hdone hk]
    rcases step_served hstep with hrefused | ⟨_, _, hreply⟩
    · exact absurd hcode hrefused
    · obtain ⟨r, hopen, hbody⟩ :=
        httpDownload_faithful c w₁ env authorization query hcode hreply
      exact ⟨r, ⟨done, _, w₁, rfl, hdone, hopen⟩, hbody⟩

end

end FileEngine.Deployment
