import FileEngine.Tasks.Losses

/-!
# Task IDs

The ID of a task is the formatted time of the call that enqueues it, and nothing else. So
calls that read the same nanosecond, on one host or on several, return the same ID, and the
status of one task overwrites that of the other. If all readings of a run differ, an ID
names one task (`taskIds_name_tasks`).
-/

namespace FileEngine.Tasks

open Go Queue

variable {ι σ : Type}

/-! ## Calls and their IDs -/

/-- The calls of `EnqueueCreateFolder` in a run: what they read from the clock, and their
payloads. -/
def calls (sys : System σ) (actions : List (Action ι σ)) : List (Nat × TaskPayload) :=
  actions.filterMap fun
    | .createFolder now parentPath folderName requestedBy _ =>
        some (now, createFolderPayload sys.codec now parentPath folderName requestedBy)
    | _ => none

/-- The readings of the clock. -/
def readings (sys : System σ) (actions : List (Action ι σ)) : List Nat :=
  (calls sys actions).map Prod.fst

/-- The calls that succeeded: what they have read, the ID that they returned, and their
payloads. -/
def returns (log : List (Event ι)) : List (Nat × Str × TaskPayload) :=
  log.filterMap fun | .returned now id payload => some (now, id, payload) | _ => none

/-- What the calls that succeeded have read. -/
def returnedAt (log : List (Event ι)) : List Nat := (returns log).map fun p => p.1

/-- The IDs that were returned. -/
def returnedIds (log : List (Event ι)) : List Str := (returns log).map fun p => p.2.1

theorem mem_returns {log : List (Event ι)} {now : Nat} {id : Str} {payload : TaskPayload} :
    (now, id, payload) ∈ returns log ↔ .returned now id payload ∈ log := by
  unfold returns
  rw [List.mem_filterMap]
  constructor
  · rintro ⟨e, he, heq⟩
    cases e <;> cases heq
    exact he
  · exact fun he => ⟨_, he, rfl⟩

/-- What was returned is the formatted reading of a call of the run. -/
structure Named (sys : System σ) (done : List (Action ι σ)) (log : List (Event ι)) : Prop where
  call : ((returns log).map fun p => (p.1, p.2.2)).Sublist (calls sys done)
  id : ∀ p ∈ returns log, p.2.1 = formatTime p.1

section

variable {sys : System σ}

theorem mem_calls {actions : List (Action ι σ)} {a : Action ι σ} (ha : a ∈ actions)
    (hcall : ∀ payload outcome, a ≠ .enqueue payload outcome) {payload : TaskPayload}
    (hpayload : a.payload sys = some payload) :
    ∃ now, payload.id = formatTime now ∧ (now, payload) ∈ calls sys actions := by
  cases a with
  | enqueue payload outcome => exact absurd rfl (hcall payload outcome)
  | createFolder now parentPath folderName requestedBy outcome =>
    cases hpayload
    exact ⟨now, rfl, List.mem_filterMap.mpr ⟨_, ha, rfl⟩⟩
  | _ => cases hpayload

theorem returns_pushEvents (codec : Codec) (outcome : Outcome) (payload : TaskPayload)
    (accepted : Bool) :
    returns (pushEvents codec outcome payload accepted : List (Event ι)) = [] := by
  unfold pushEvents
  cases appended codec outcome payload <;> rfl

theorem returns_createEvents (now : Nat) (outcome : Outcome) (payload : TaskPayload)
    (reply : Except Str Str) :
    returns (createEvents sys now outcome payload reply : List (Event ι)) =
      reply.toOption.toList.map fun id => (now, id, payload) := by
  unfold createEvents
  rw [returns, List.filterMap_append, ← returns, returns_pushEvents, List.nil_append]
  cases reply <;> rfl

theorem named_step [DecidableEq ι] {w w' : World ι σ} {a : Action ι σ} {events : List (Event ι)}
    (h : step sys w a = some (w', events)) : Named sys [a] events := by
  cases a with
  | createFolder now parentPath folderName requestedBy outcome =>
    simp only [step, Option.some.injEq, Prod.mk.injEq] at h
    have hcall : calls sys [(.createFolder now parentPath folderName requestedBy outcome :
        Action ι σ)] = [(now, createFolderPayload sys.codec now parentPath folderName requestedBy)] :=
      rfl
    cases hreply : (enqueueCreateFolder sys.codec now outcome parentPath folderName requestedBy
        w.redis).1 with
    | error e =>
      have hnone : returns events = [] := by rw [← h.2, hreply, returns_createEvents]; rfl
      constructor <;> simp [hnone]
    | ok id =>
      have hone : returns events = [(now, id, createFolderPayload sys.codec now parentPath
          folderName requestedBy)] := by
        rw [← h.2, hreply, returns_createEvents]; rfl
      constructor
      · rw [hone, hcall]
        exact List.Sublist.refl _
      · simp [hone, enqueueCreateFolder_ok hreply, System.codec]
  | _ =>
    -- no other step returns an ID
    have hnone : returns events = [] := by
      refine List.filterMap_eq_nil_iff.mpr fun e he => ?_
      cases e with
      | returned now id payload =>
        obtain ⟨_, _, ⟨_, _, heq, _⟩ | ⟨_, _, _, _, _, heq, _⟩⟩ := step_enqueuer h he trivial <;>
          cases heq
      | _ => rfl
    constructor <;> simp [hnone]

theorem Named.append {done : List (Action ι σ)} {a : Action ι σ} {log events : List (Event ι)}
    (h : Named sys done log) (h' : Named sys [a] events) :
    Named sys (done ++ [a]) (log ++ events) := by
  have hcalls : calls sys (done ++ [a]) = calls sys done ++ calls sys [a] := List.filterMap_append
  have hreturns : returns (log ++ events) = returns log ++ returns events := List.filterMap_append
  constructor
  · rw [hcalls, hreturns, List.map_append]
    exact h.call.append h'.call
  · rw [hreturns]
    exact fun p hp => (List.mem_append.mp hp).elim (h.id p) (h'.id p)

theorem Named.returnedIds_eq {done : List (Action ι σ)} {log : List (Event ι)}
    (h : Named sys done log) : returnedIds log = (returnedAt log).map formatTime := by
  unfold returnedIds returnedAt
  rw [List.map_map]
  refine List.map_congr_left fun p hp => ?_
  rw [h.id p hp, Function.comp_apply]

theorem Named.returnedAt_sublist {done : List (Action ι σ)} {log : List (Event ι)}
    (h : Named sys done log) : (returnedAt log).Sublist (readings sys done) := by
  have hmap := h.call.map Prod.fst
  rwa [List.map_map] at hmap

/-! ## Statuses -/

variable [DecidableEq ι] {store : σ} {actions : List (Action ι σ)} {w : World ι σ}
  {log : List (Event ι)}

theorem exec_named (hexec : exec sys actions (World.init store) = some (w, log)) :
    Named sys actions log :=
  Step.exec_invariant (fun done _ log => Named sys done log)
    (fun _ _ _ _ _ _ h hstep => h.append (named_step hstep))
    ⟨List.nil_sublist _, nofun⟩ hexec

/-- Whatever is stored under a key was written by a worker. -/
theorem keys_completed (hexec : exec sys actions (World.init store) = some (w, log)) :
    ∀ key status, w.redis.keys key = some status →
      ∃ i k id, key = taskKey id ∧ .completed i k id status true ∈ log := by
  refine Step.exec_invariant (fun _ w log => ∀ key status, w.redis.keys key = some status →
      ∃ i k id, key = taskKey id ∧ .completed i k id status true ∈ log)
    (fun _ _ w log w' events h hstep key status hkey => ?_)
    (fun _ _ hkey => by cases hkey) hexec
  have hold : w.redis.keys key = some status →
      ∃ i k id, key = taskKey id ∧ .completed i k id status true ∈ log ++ events := by
    intro hkey
    obtain ⟨i, k, id, rfl, he⟩ := h key status hkey
    exact ⟨i, k, id, rfl, List.mem_append_left _ he⟩
  rcases change_keys (step_change hstep) with ⟨hkeys, _⟩ | ⟨i, k, id, status', rfl, _, hkeys⟩
  · exact hold (hkeys ▸ hkey)
  · rw [hkeys] at hkey
    by_cases heq : key = taskKey id
    · rw [heq, Function.update_self] at hkey
      cases hkey
      exact ⟨i, k, id, heq, List.mem_append_right _ (List.mem_singleton_self _)⟩
    · rw [Function.update_of_ne heq] at hkey
      exact hold hkey

/-- A stored status is the outcome of a task that some call has enqueued. -/
theorem keys_processed (hexec : exec sys actions (World.init store) = some (w, log))
    {id status : Str} (hkey : w.redis.keys (taskKey id) = some status) :
    ∃ a ∈ actions, ∃ payload raw, a.payload sys = some payload ∧ sys.marshal payload = .ok raw ∧
      (sys.unmarshal raw).id = id ∧
      ∃ i k result, .processed i k (sys.unmarshal raw) result ∈ log ∧ status = statusOf result := by
  obtain ⟨hlist, hworkers⟩ := ordered_tracked hexec
  obtain ⟨i, k, id', hid, he⟩ := keys_completed hexec _ _ hkey
  obtain rfl : id = id' := List.append_cancel_left hid
  obtain ⟨task, result, hprocessed, rfl, rfl⟩ := hworkers.status i k id status true he
  obtain ⟨raw, hraw, rfl⟩ : ∃ raw, (raws log)[k]? = some raw ∧ task = sys.unmarshal raw :=
    hlist.task (k, task) (mem_pops.mpr ⟨i, hworkers.popped i k task result hprocessed⟩)
  obtain ⟨e, hpushed, heq⟩ := List.mem_filterMap.mp (List.mem_of_getElem? hraw)
  cases e <;> cases heq
  obtain ⟨⟨a, ha, hpayload⟩, hmarshal⟩ := pushed_call hexec _ _ _ hpushed
  exact ⟨a, ha, _, _, hpayload, hmarshal, rfl, i, k, result, hprocessed, rfl⟩

end

/-- **When an ID names one task.** Take any run in which tasks are enqueued by
`EnqueueCreateFolder`, and let JSON keep their IDs. Two calls return the same ID just if they
have read the same time. If no two calls read the same time, no ID is returned twice, and a
status that is stored under an ID is the outcome of processing the payload of the call that
has returned it, as JSON gives it back. -/
theorem taskIds_name_tasks [DecidableEq ι] (sys : System σ) (store : σ)
    (actions : List (Action ι σ)) (w : World ι σ) (log : List (Event ι))
    (hexec : exec sys actions (World.init store) = some (w, log))
    (hcalls : ∀ a ∈ actions, ∀ payload outcome, a ≠ .enqueue payload outcome)
    (hjson : ∀ a ∈ actions, ∀ payload raw, a.payload sys = some payload →
      sys.marshal payload = .ok raw → (sys.unmarshal raw).id = payload.id) :
    ((returnedIds log).Nodup ↔ (returnedAt log).Nodup) ∧
      ((readings sys actions).Nodup → (returnedIds log).Nodup ∧
        ∀ now id payload, .returned now id payload ∈ log →
          ∀ status, w.redis.keys (taskKey id) = some status →
            ∃ raw i k result, sys.marshal payload = .ok raw ∧
              .processed i k (sys.unmarshal raw) result ∈ log ∧ status = statusOf result ∧
              (RoundTrips sys payload → .processed i k payload result ∈ log)) := by
  have hnamed := exec_named hexec
  have hiff : (returnedIds log).Nodup ↔ (returnedAt log).Nodup := by
    rw [hnamed.returnedIds_eq]
    exact List.nodup_map_iff formatTime_injective
  refine ⟨hiff, fun hnodup => ⟨hiff.mpr (hnodup.sublist hnamed.returnedAt_sublist), ?_⟩⟩
  intro now id payload hreturned status hkey
  have hmem := mem_returns.mpr hreturned
  have hcall : (now, payload) ∈ calls sys actions :=
    hnamed.call.subset (List.mem_map.mpr ⟨_, hmem, rfl⟩)
  obtain rfl : id = formatTime now := hnamed.id _ hmem
  obtain ⟨a, ha, payload', raw, hpayload, hraw, hid, i, k, result, hprocessed, hstatus⟩ :=
    keys_processed hexec hkey
  obtain ⟨now', hid', hcall'⟩ := mem_calls ha (hcalls a ha) hpayload
  -- the task that has the status and the call that has the ID have read the same time
  have hnow : now' = now := by
    apply formatTime_injective
    rw [← hid', ← hjson a ha payload' raw hpayload hraw, hid]
  have hsame : (now', payload') = (now, payload) :=
    List.inj_on_of_nodup_map hnodup hcall' hcall hnow
  cases hsame
  refine ⟨raw, i, k, result, hraw, hprocessed, hstatus, fun htrip => ?_⟩
  rwa [htrip raw hraw] at hprocessed

/-- Two calls in the same nanosecond, the second one without a name. Both succeed and return
the same ID. The task of the first was processed without an error, and the status under its ID
is "failed". -/
theorem taskId_names_two :
    ∃ w log, exec smallSystem (smallActions 0 0 (str "b") []) (World.init ()) = some (w, log) ∧
      returnedIds log = [formatTime 0, formatTime 0] ∧
      .returned 0 (formatTime 0) (smallTask 0 (str "b")) ∈ log ∧
      .processed () 0 (smallTask 0 (str "b")) (.ok ()) ∈ log ∧
      w.redis.keys (taskKey (formatTime 0)) = some (str "failed") := by
  obtain ⟨w, raw, raw', hexec, hkey⟩ :=
    exec_smallActions (m := 0) (n := 0) (x := str "b") (y := []) (by decide) (by decide)
  exact ⟨w, _, hexec, rfl, List.mem_of_getElem? (i := 1) rfl, List.mem_of_getElem? (i := 5) rfl,
    hkey⟩

/-- The same with another reading for the second call. -/
theorem taskIds_name_tasks_other :
    let actions := smallActions 0 1 (str "b") []
    ∃ w log, exec smallSystem actions (World.init ()) = some (w, log) ∧
      (readings smallSystem actions).Nodup ∧
      ((returnedIds log).Nodup ↔ (returnedAt log).Nodup) ∧
      ((readings smallSystem actions).Nodup → (returnedIds log).Nodup ∧
        ∀ now id payload, .returned now id payload ∈ log →
          ∀ status, w.redis.keys (taskKey id) = some status →
            ∃ raw i k result, smallSystem.marshal payload = .ok raw ∧
              .processed i k (smallSystem.unmarshal raw) result ∈ log ∧ status = statusOf result ∧
              (RoundTrips smallSystem payload → .processed i k payload result ∈ log)) := by
  intro actions
  obtain ⟨w, raw, raw', hexec, _⟩ :=
    exec_smallActions (m := 0) (n := 1) (x := str "b") (y := []) (by decide) (by decide)
  refine ⟨w, _, hexec, ?_, taskIds_name_tasks smallSystem () actions w _ hexec ?_ ?_⟩
  · have hreadings : readings smallSystem actions = [0, 1] := rfl
    rw [hreadings]
    decide
  · intro a ha payload outcome heq
    subst heq
    simp [actions, smallActions, smallCall, round] at ha
  · intro a ha payload raw hp hraw
    rw [roundTrips_smallActions (by decide) (by decide) ha hp raw hraw]

end FileEngine.Tasks
