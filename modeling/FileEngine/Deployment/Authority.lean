import FileEngine.Deployment.System

/-!
# What the workers do was asked for

The server puts into the list of tasks what calls that were let through enqueue, and nothing
else does. What the queue and the workers see of a run is a run of the task system alone
(`exec_refines`), so all that is known of such runs holds here. In particular the task with the
ticket `k` is the `k`-th one that the server accepted, and every task that is processed goes
back to its own call by a caller with the permission (`processed_authorized`).

The permission is looked up when the call is made. What the ACL store answers when the worker
comes to the task is not asked.
-/

namespace FileEngine.Deployment

open Go Auth Authz Queue

variable {ι σ : Type}

/-! ## The task system beneath -/

/-- The result of an `EnqueueCreateFolder`, which does not depend on what Redis holds. -/
def enqueued (d : Wiring σ) (env : Server.Env) (parentPath folderName requestedBy : Str) :
    Except Str Str :=
  (enqueueCreateFolder d.tasks.codec env.now env.rpush parentPath folderName requestedBy
    ⟨[], fun _ => none⟩).1

theorem enqueued_eq (d : Wiring σ) (env : Server.Env) (parentPath folderName requestedBy : Str)
    (r : Redis) : (enqueueCreateFolder d.tasks.codec env.now env.rpush parentPath folderName
      requestedBy r).1 = enqueued d env parentPath folderName requestedBy := by
  unfold enqueued enqueueCreateFolder enqueue
  dsimp only
  cases d.tasks.codec.marshal _ with
  | error e => rfl
  | ok b => cases env.rpush <;> rfl

/-- What an event means for the task system. -/
def Event.tasks (d : Wiring σ) : Event ι → List (Tasks.Event ι)
  | .served acl env (.createFolder md parentPath folderName requestedBy) _ =>
      if Server.decision d.server acl (.createFolder md parentPath folderName requestedBy) =
          some true then
        Tasks.createEvents d.tasks env.now env.rpush
          (createFolderPayload d.tasks.codec env.now parentPath folderName requestedBy)
          (enqueued d env parentPath folderName requestedBy)
      else []
  | .task e => [e]
  | _ => []

theorem after_enqueues [DecidableEq ι] (d : Wiring σ) (w : World ι σ) (env : Server.Env)
    (md : Option Server.MD) (parentPath folderName requestedBy : Str) :
    Tasks.step d.tasks w.toWorld
        (.createFolder env.now parentPath folderName requestedBy env.rpush) =
      some ((w.after d env (.createFolder md parentPath folderName requestedBy)).toWorld,
        Tasks.createEvents d.tasks env.now env.rpush
          (createFolderPayload d.tasks.codec env.now parentPath folderName requestedBy)
          (enqueued d env parentPath folderName requestedBy)) := by
  simp only [Tasks.step, enqueued_eq]
  rfl

/-- A call that is let through either enqueues, or changes nothing but the storage. -/
theorem after_refines [DecidableEq ι] {d : Wiring σ} {w : World ι σ} {call : Server.Call}
    (hd : Server.decision d.server w.acl call = some true) (env : Server.Env)
    (reply : Server.Reply) :
    ∃ a, Tasks.step d.tasks w.toWorld a = some ((w.after d env call).toWorld,
      Event.tasks d (.served w.acl env call reply)) := by
  cases call with
  | createFolder md parentPath folderName requestedBy =>
    rw [Event.tasks, if_pos hd]
    exact ⟨_, after_enqueues d w env md parentPath folderName requestedBy⟩
  | listObjects md listPrefix =>
    exact ⟨.touch (w.after d env (.listObjects md listPrefix)).store, rfl⟩
  | uploadObject md path content =>
    exact ⟨.touch (w.after d env (.uploadObject md path content)).store, rfl⟩
  | downloadObject md path => exact ⟨.touch (w.after d env (.downloadObject md path)).store, rfl⟩
  | httpDownload authorization query =>
    exact ⟨.touch (w.after d env (.httpDownload authorization query)).store, rfl⟩

theorem step_refines [DecidableEq ι] {d : Wiring σ} {a : Action ι} {w w' : World ι σ}
    {events : List (Event ι)} (hstep : step d w a = some (w', events)) :
    ∃ actions, Step.exec (Tasks.step d.tasks) actions w.toWorld =
      some (w'.toWorld, events.flatMap (Event.tasks d)) := by
  cases a with
  | call env call =>
    by_cases hd : Server.decision d.server w.acl call = some true
    · cases (step_letThrough hd env).symm.trans hstep
      obtain ⟨a, ha⟩ := after_refines hd env (Server.carryOut d.server env call w.server).1
      exact ⟨[a], by rw [List.flatMap_singleton]; exact Step.exec_one ha⟩
    · have hnone : Event.tasks d (.hung w.acl env call : Event ι) = [] := rfl
      have hserved : ∀ reply, Event.tasks d (.served w.acl env call reply : Event ι) = [] := by
        intro reply
        cases call with
        | createFolder md parentPath folderName requestedBy => exact if_neg hd
        | _ => rfl
      rcases step_turnedAway hd env with hsame | ⟨reply, _, hsame⟩
      · cases hsame.symm.trans hstep
        exact ⟨[], by simp [Step.exec, hnone]⟩
      · cases hsame.symm.trans hstep
        exact ⟨[], by simp [Step.exec, hserved]⟩
  | acl store =>
    cases hstep
    exact ⟨[], rfl⟩
  | turn t =>
    obtain ⟨⟨tasks, events'⟩, hturn, heq⟩ := Option.map_eq_some_iff.mp hstep
    cases heq
    have hevents : (events'.map Event.task).flatMap (Event.tasks d) = events' := by
      simp [List.flatMap_map, Event.tasks]
    exact ⟨[t.action], hevents.symm ▸ Step.exec_one hturn⟩

/-- **The queue and the workers run as the task system alone.** -/
theorem exec_refines [DecidableEq ι] {d : Wiring σ} {actions : List (Action ι)} {w w' : World ι σ}
    {log : List (Event ι)} (h : (step d).exec actions w = some (w', log)) :
    ∃ actions', Tasks.exec d.tasks actions' w.toWorld =
      some (w'.toWorld, log.flatMap (Event.tasks d)) := by
  have hsimulates : ∀ a (w w' : World ι σ) events t, t = w.toWorld →
      step d w a = some (w', events) → ∃ actions t', Step.exec (Tasks.step d.tasks) actions t =
        some (t', events.flatMap (Event.tasks d)) ∧ t' = w'.toWorld := by
    rintro a w w' events _ rfl hstep
    obtain ⟨actions, hexec⟩ := step_refines hstep
    exact ⟨actions, _, hexec, rfl⟩
  obtain ⟨actions', t', hexec, rfl⟩ := Step.exec_simulates (fun (w : World ι σ) t => t = w.toWorld)
    (Event.tasks d) hsimulates rfl h
  exact ⟨actions', hexec⟩

/-! ## What was accepted -/

/-- A `CreateFolder` call at the time at which it was made. -/
structure Folder where
  acl : ACLStore
  env : Server.Env
  md : Option Server.MD
  parentPath : Str
  folderName : Str
  requestedBy : Str

def Folder.call (f : Folder) : Server.Call :=
  .createFolder f.md f.parentPath f.folderName f.requestedBy

def Folder.payload (d : Wiring σ) (f : Folder) : TaskPayload :=
  createFolderPayload d.tasks.codec f.env.now f.parentPath f.folderName f.requestedBy

/-- What the call puts into the list, if it is let through. -/
def Folder.raw (d : Wiring σ) (f : Folder) : Option Str :=
  if Server.decision d.server f.acl f.call = some true then
    appended d.tasks.codec f.env.rpush (f.payload d)
  else none

def Event.folder : Event ι → Option Folder
  | .served acl env (.createFolder md parentPath folderName requestedBy) _ =>
      some ⟨acl, env, md, parentPath, folderName, requestedBy⟩
  | _ => none

/-- The calls that have put a task into the list, in their order. -/
def accepted (d : Wiring σ) (log : List (Event ι)) : List Folder :=
  (log.filterMap Event.folder).filter fun f => (f.raw d).isSome

theorem accepted_append (d : Wiring σ) (log events : List (Event ι)) :
    accepted d (log ++ events) = accepted d log ++ accepted d events := by
  simp [accepted]

/-- What the workers did. -/
def workerLog (log : List (Event ι)) : List (Tasks.Event ι) :=
  log.filterMap fun | .task e => some e | _ => none

/-- The calls of a log that have put something into the list, with what they put there. -/
def pushes (d : Wiring σ) (log : List (Event ι)) : List Str :=
  (log.filterMap Event.folder).filterMap (Folder.raw d)

theorem pushes_append (d : Wiring σ) (log events : List (Event ι)) :
    pushes d (log ++ events) = pushes d log ++ pushes d events := by
  simp [pushes]

/-- What was pushed, call by call. -/
theorem map_pushes (d : Wiring σ) (log : List (Event ι)) :
    (pushes d log).map some = (accepted d log).map (Folder.raw d) := by
  unfold pushes accepted
  induction log.filterMap Event.folder with
  | nil => rfl
  | cons f calls ih =>
    cases hf : f.raw d with
    | none => rw [List.filterMap_cons_none hf, List.filter_cons_of_neg (by simp [hf]), ih]
    | some raw =>
      rw [List.filterMap_cons_some hf, List.filter_cons_of_pos (by simp [hf]), List.map_cons,
        List.map_cons, ih, hf]

theorem getElem?_pushes {d : Wiring σ} {log : List (Event ι)} {k : Nat} {raw : Str}
    (h : (pushes d log)[k]? = some raw) :
    ∃ f, (accepted d log)[k]? = some f ∧ f.raw d = some raw := by
  have hmap := congrArg (·[k]?) (map_pushes d log)
  simp only [List.getElem?_map, h, Option.map_some] at hmap
  exact Option.map_eq_some_iff.mp hmap.symm

theorem pushes_of_accepted {d : Wiring σ} {log : List (Event ι)} {k : Nat} {f : Folder}
    (h : (accepted d log)[k]? = some f) :
    ∃ raw, f.raw d = some raw ∧ (pushes d log)[k]? = some raw := by
  have hmap := congrArg (·[k]?) (map_pushes d log)
  simp only [List.getElem?_map, h, Option.map_some] at hmap
  obtain ⟨raw, hraw, heq⟩ := Option.map_eq_some_iff.mp hmap
  exact ⟨raw, heq.symm, hraw⟩

/-- What a call puts into the list is what the task system appends for it. -/
theorem raws_served (d : Wiring σ) (acl : ACLStore) (env : Server.Env) (call : Server.Call)
    (reply : Server.Reply) :
    Tasks.raws (Event.tasks d (.served acl env call reply : Event ι)) =
      pushes d [(.served acl env call reply : Event ι)] := by
  cases call with
  | createFolder md parentPath folderName requestedBy =>
    let f : Folder := ⟨acl, env, md, parentPath, folderName, requestedBy⟩
    have hone : ∀ o, f.raw d = o → List.filterMap (Folder.raw d) [f] = o.toList := by
      rintro (_ | raw) ho
      · exact List.filterMap_cons_none ho
      · exact List.filterMap_cons_some ho
    show _ = List.filterMap (Folder.raw d) [f]
    rw [Event.tasks, hone _ rfl]
    by_cases hd : Server.decision d.server acl f.call = some true
    · rw [show f.raw d = _ from if_pos hd]
      exact (congrArg Tasks.raws (if_pos hd)).trans (Tasks.raws_createEvents _ _ _ _ _)
    · rw [show f.raw d = _ from if_neg hd]
      exact congrArg Tasks.raws (if_neg hd)
  | _ => rfl

theorem step_raws [DecidableEq ι] {d : Wiring σ} {a : Action ι} {w w' : World ι σ}
    {events : List (Event ι)} (h : step d w a = some (w', events)) :
    Tasks.raws (events.flatMap (Event.tasks d)) = pushes d events := by
  cases a with
  | call env call =>
    simp only [step] at h
    split at h <;> cases h
    · rfl
    · rw [List.flatMap_singleton]
      exact raws_served d _ _ _ _
  | acl store =>
    cases h
    rfl
  | turn t =>
    obtain ⟨⟨tasks, events'⟩, hturn, heq⟩ := Option.map_eq_some_iff.mp h
    cases heq
    have htasks : (events'.map Event.task).flatMap (Event.tasks d) = events' := by
      simp [List.flatMap_map, Event.tasks]
    have hnone : (events'.map Event.task).filterMap Event.folder = [] :=
      List.filterMap_eq_nil_iff.mpr fun e he => by
        obtain ⟨x, _, rfl⟩ := List.mem_map.mp he
        rfl
    rw [htasks, (turn_events hturn).2, pushes, hnone]
    rfl

/-- The list of tasks is fed by the calls alone. -/
theorem raws_exec [DecidableEq ι] {d : Wiring σ} {actions : List (Action ι)} {w w' : World ι σ}
    {log : List (Event ι)} (h : (step d).exec actions w = some (w', log)) :
    Tasks.raws (log.flatMap (Event.tasks d)) = pushes d log := by
  refine Step.exec_invariant
    (fun _ _ log => Tasks.raws (log.flatMap (Event.tasks d)) = pushes d log)
    (fun _ _ _ _ _ _ ih hstep => ?_) rfl h
  rw [List.flatMap_append, Tasks.raws_append, pushes_append, ih, step_raws hstep]

/-! ## Every task was asked for -/

theorem handed_workerLog (d : Wiring σ) (log : List (Event ι)) :
    Tasks.handed (log.flatMap (Event.tasks d)) = Tasks.handed (workerLog log) := by
  induction log with
  | nil => rfl
  | cons e log ih =>
    rw [List.flatMap_cons, Tasks.handed_append, ih]
    cases e with
    | task e => exact (Tasks.handed_append [e] (workerLog log)).symm
    | hung acl env call => rfl
    | served acl env call reply =>
      have hnone : Tasks.handed (Event.tasks d (.served acl env call reply : Event ι)) = [] := by
        cases call with
        | createFolder md parentPath folderName requestedBy =>
          rw [Event.tasks]
          split
          · refine Tasks.handed_of_aside fun e he => ?_
            rcases Tasks.mem_createEvents he with ⟨raw, accepted, rfl, _⟩ | ⟨id, _, rfl⟩
            · exact ⟨nofun, nofun⟩
            · exact ⟨nofun, nofun⟩
          · rfl
        | _ => rfl
      rw [hnone]
      rfl

/-- A task that is processed was held before, and the storage is as the processor leaves it. -/
theorem step_processed [DecidableEq ι] {d : Wiring σ} {a : Action ι} {w w' : World ι σ} {i : ι}
    {k : Nat} {task : TaskPayload} {result : Except Str Unit}
    (h : step d w a = some (w', [.task (.processed i k task result)])) :
    w.worker i = .holding k task ∧ Tasks.process d.backend task w.store = (result, w'.store) := by
  cases a with
  | call env call =>
    simp only [step] at h
    split at h <;> cases h
  | acl store => cases h
  | turn t =>
    obtain ⟨⟨tasks, events⟩, hturn, heq⟩ := Option.map_eq_some_iff.mp h
    obtain ⟨rfl, hevents⟩ := Prod.mk.inj heq
    obtain ⟨e, rfl, he⟩ := List.map_eq_singleton_iff.mp hevents
    cases he
    cases t with
    | process j =>
      simp only [Turn.action, Tasks.step] at hturn
      split at hturn
      · rename_i ticket task' hholding
        cases hturn
        exact ⟨hholding, rfl⟩
      · cases hturn
    | pop j outcome =>
      simp only [Turn.action, Tasks.step] at hturn
      split at hturn
      · cases hturn
      · split at hturn <;> cases hturn
      · cases hturn
    | complete j outcome =>
      simp only [Turn.action, Tasks.step] at hturn
      split at hturn <;> cases hturn
    | stop j =>
      obtain ⟨rfl, hstop⟩ := Prod.mk.inj (Option.some.inj hturn)
      obtain ⟨_, _, he⟩ := Tasks.mem_stopEvents (hstop ▸ List.mem_singleton_self _)
      cases he

theorem raw_eq_some {d : Wiring σ} {f : Folder} {raw : Str} (h : f.raw d = some raw) :
    Server.decision d.server f.acl f.call = some true ∧ d.marshal (f.payload d) = .ok raw := by
  unfold Folder.raw at h
  split at h
  · rename_i hd
    refine ⟨hd, ?_⟩
    unfold appended at h
    split at h
    · cases h
    · rename_i b hb
      split at h
      · cases h
        exact hb
      · cases h
  · cases h

/-- A task that a worker has popped came into the list by a call. -/
theorem popped_asked [DecidableEq ι] {d : Wiring σ} {store : σ} {acl : ACLStore}
    {actions : List (Action ι)} {w : World ι σ} {log : List (Event ι)}
    (hexec : (step d).exec actions (World.init store acl) = some (w, log)) {i : ι} {k : Nat}
    {task : TaskPayload} (h : .popped i k task ∈ log.flatMap (Event.tasks d)) :
    ∃ f raw, (accepted d log)[k]? = some f ∧ f.raw d = some raw ∧ task = d.unmarshal raw := by
  obtain ⟨actions', hrefines⟩ := exec_refines hexec
  obtain ⟨raw, hraw, htask⟩ := (Tasks.ordered_tracked hrefines).1.task (k, task)
    (Tasks.mem_pops.mpr ⟨i, h⟩)
  rw [raws_exec hexec] at hraw
  obtain ⟨f, hf, hfraw⟩ := getElem?_pushes hraw
  exact ⟨f, raw, hf, hfraw, htask⟩

/-- A worker that holds a task holds what a call has put into the list. -/
theorem holding_asked [DecidableEq ι] {d : Wiring σ} {store : σ} {acl : ACLStore}
    {actions : List (Action ι)} {w : World ι σ} {log : List (Event ι)}
    (hexec : (step d).exec actions (World.init store acl) = some (w, log)) {i : ι} {k : Nat}
    {task : TaskPayload} (h : w.worker i = .holding k task) :
    ∃ f raw, (accepted d log)[k]? = some f ∧ f.raw d = some raw ∧ task = d.unmarshal raw := by
  obtain ⟨actions', hrefines⟩ := exec_refines hexec
  exact popped_asked hexec ((Tasks.ordered_tracked hrefines).2.holding i k task h).1

/-- **Every task that is processed was asked for by a caller with the permission.** In every run
that starts with an empty queue, the task with the ticket `k` that a worker hands to the
processor is the decoded payload of the `k`-th `CreateFolder` call that the server has accepted
before, and when that call was made its header proved an identity with the write permission on
the path that was asked for. No ticket is processed twice, so no call leads to two tasks. -/
theorem processed_authorized [DecidableEq ι] (d : Wiring σ) (store : σ) (acl : ACLStore)
    (actions : List (Action ι)) (w : World ι σ) (log : List (Event ι))
    (hexec : (step d).exec actions (World.init store acl) = some (w, log)) :
    (∀ before i k task result after,
      log = before ++ .task (.processed i k task result) :: after →
      ∃ f a raw, (accepted d before)[k]? = some f ∧
        Server.identity d.lib d.verifier (Server.authHeader f.md) = some a ∧
        canAccess a (normalize (folderPath f.parentPath f.folderName)) permWrite f.acl =
          some true ∧
        d.marshal (f.payload d) = .ok raw ∧ task = d.unmarshal raw) ∧
    ((Tasks.handed (workerLog log)).map Prod.fst).Nodup := by
  constructor
  · intro before i k task result after hlog
    subst hlog
    obtain ⟨done, a, rest, w₁, w₂, rfl, hdone, hstep, _⟩ := Step.exec_event (step_single d) hexec
    -- the worker held the task before this step
    obtain ⟨f, raw, hf, hfraw, htask⟩ := holding_asked hdone (step_processed hstep).1
    obtain ⟨hdecision, hmarshal⟩ := raw_eq_some hfraw
    obtain ⟨a, hid, hcan⟩ := Server.decision_true hdecision
    exact ⟨f, a, raw, hf, hid, hcan, hmarshal, htask⟩
  · obtain ⟨actions', hrefines⟩ := exec_refines hexec
    rw [← handed_workerLog d]
    exact (Tasks.ordered_tracked hrefines).2.once

/-! ## A small run -/

/-- The user `7` may do everything beneath `/a`. -/
def demoACL : ACLStore := (onlyAt (str "/a") (str "7")).asACLStore

/-- `CreateFolder` by the user `7`, and one round of the only worker. -/
def folderRun (parentPath folderName : Str) : List (Action Unit) :=
  [.call Server.demoEnv (.createFolder (some Server.bearerMD) parentPath folderName (str "7")),
    .turn (.pop () .ok), .turn (.process ()), .turn (.complete () .ok)]

/-- The event of a task that was processed. -/
def Event.isProcessed : Event ι → Bool
  | .task (.processed _ _ _ _) => true
  | _ => false

theorem isProcessed_split {log : List (Event ι)} (h : log.any Event.isProcessed = true) :
    ∃ before i k task result after,
      log = before ++ .task (.processed i k task result) :: after := by
  obtain ⟨e, he, hprocessed⟩ := List.any_eq_true.mp h
  obtain ⟨before, after, rfl⟩ := List.append_of_mem he
  match e, hprocessed with
  | .task (.processed i k task result), _ => exact ⟨before, i, k, task, result, after, rfl⟩

/-- A task is processed, and it was asked for by someone with the permission. -/
theorem processed_authorized_small :
    let d := jsonWiring sampleLib Server.demo.verifier Tasks.quietStorage id
    ∃ w log f a, (step d).exec (folderRun (str "/a") (str "b"))
        (World.init () demoACL) = some (w, log) ∧ f ∈ accepted d log ∧
      canAccess a (normalize (folderPath f.parentPath f.folderName)) permWrite f.acl =
        some true := by
  intro d
  have hrun : (((step d).exec (folderRun (str "/a") (str "b"))
      (World.init () demoACL)).map fun out => out.2.any Event.isProcessed) = some true := by
    decide +kernel
  obtain ⟨⟨w, log⟩, hexec, hany⟩ := Option.map_eq_some_iff.mp hrun
  obtain ⟨before, i, k, task, result, after, hlog⟩ := isProcessed_split hany
  obtain ⟨f, a, raw, hf, _, hcan, _⟩ :=
    (processed_authorized d () demoACL _ w log hexec).1 _ _ _ _ _ _ hlog
  refine ⟨w, log, f, a, hexec, ?_, hcan⟩
  rw [show log = _ from hlog, accepted_append]
  exact List.mem_append_left _ (List.mem_of_getElem? hf)

end FileEngine.Deployment
