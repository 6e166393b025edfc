import FileEngine.Tasks.Delivery

/-!
# What becomes of a task

`BLPOP` removes a task from the list before anything has been done with it, and nothing
brings it back. So a task that was accepted is not always in the list, with a running worker,
or recorded: it can be lost when the reply to `BLPOP` fails, when its worker is stopped, or
when the status cannot be written. `tasks_accounted` says that these are the only ways.
-/

namespace FileEngine.Tasks

open Go Queue

variable {ι σ : Type}

/-- What was appended to the list, and whether the call returned `nil`. -/
def pushes (log : List (Event ι)) : List (TaskPayload × Str × Bool) :=
  log.filterMap fun | .pushed payload raw accepted => some (payload, raw, accepted) | _ => none

theorem raws_eq_map (log : List (Event ι)) : raws log = (pushes log).map fun p => p.2.1 := by
  unfold raws pushes
  rw [List.map_filterMap]
  refine List.filterMap_congr fun e _ => ?_
  cases e <;> rfl

/-- A status that a worker writes. -/
def Terminal (status : Option Str) : Prop :=
  status = some (str "success") ∨ status = some (str "failed")

theorem terminal_statusOf (result : Except Str Unit) : Terminal (some (statusOf result)) := by
  cases result with
  | ok _ => exact Or.inl rfl
  | error e => exact Or.inr rfl

/-- The worker has the task, and is running. -/
def Worker.Has (k : Nat) (task : TaskPayload) (state : Worker) : Prop :=
  state = .holding k task ∨ ∃ result, state = .finished k task result

section

variable {k k' : Nat} {task task' : TaskPayload}

@[simp] theorem has_ready : ¬ Worker.Has k task .ready := by simp [Worker.Has]

@[simp] theorem has_holding : Worker.Has k task (.holding k' task') ↔ k' = k ∧ task' = task := by
  simp [Worker.Has]

@[simp] theorem has_finished {result : Except Str Unit} :
    Worker.Has k task (.finished k' task' result) ↔ k' = k ∧ task' = task := by
  simp [Worker.Has]

/-- A worker that is stopped with a task has lost it. -/
theorem stopped_mem_stopEvents {i : ι} {state : Worker} (h : state.Has k task) :
    .stopped i k task ∈ state.stopEvents i := by
  rcases h with rfl | ⟨result, rfl⟩ <;> exact List.mem_singleton_self _

end

/-- The task is gone without a trace in Redis: the reply to the `BLPOP` that took it has
failed, its worker was stopped, or the status was not written. -/
inductive Lost (log : List (Event ι)) (k : Nat) (task : TaskPayload) : Prop
  | dropped (h : .dropped k ∈ log)
  | stopped (i : ι) (h : .stopped i k task ∈ log)
  | unwritten (i : ι) (status : Str) (h : .completed i k task.id status false ∈ log)

/-! ## Every task that was taken has a fate -/

/-- What has become of a task that a worker has popped. -/
def Fate (w : World ι σ) (log : List (Event ι)) (i : ι) (k : Nat) (task : TaskPayload) : Prop :=
  (w.worker i).Has k task ∨ .stopped i k task ∈ log ∨
    ∃ status stored, .completed i k task.id status stored ∈ log

structure Accounted (w : World ι σ) (log : List (Event ι)) : Prop where
  fate : ∀ k < w.ticket, .dropped k ∈ log ∨ ∃ i task, .popped i k task ∈ log ∧ Fate w log i k task
  written : ∀ i k id status, .completed i k id status true ∈ log →
    Terminal (w.redis.keys (taskKey id))

section

variable [DecidableEq ι] {sys : System σ} {w w' : World ι σ} {log events : List (Event ι)}

/-- A worker that has a task keeps it, is stopped, or completes it. -/
theorem Fate.next {i : ι} {k : Nat} {task : TaskPayload} (h : Fate w log i k task)
    (hchange : Change sys w w' events) : Fate w' (log ++ events) i k task := by
  rcases h with hhas | hstopped | ⟨status, stored, hcompleted⟩
  · cases hchange with
    | push events hpush => exact Or.inl hhas
    | drop raw rest htasks => exact Or.inl hhas
    | touch store => exact Or.inl hhas
    | pop j raw rest hj htasks =>
      have hji : i ≠ j := by
        rintro rfl
        rw [hj] at hhas
        exact has_ready hhas
      exact Or.inl (by rwa [worker_setWorker_of_ne _ hji])
    | process j k' task' result store hj =>
      left
      by_cases hji : i = j
      · subst hji
        rw [hj] at hhas
        rw [worker_setWorker_self]
        exact has_finished.mpr (has_holding.mp hhas)
      · rwa [worker_setWorker_of_ne _ hji]
    | complete j k' task' result stored hj =>
      by_cases hji : i = j
      · subst hji
        rw [hj] at hhas
        obtain ⟨rfl, rfl⟩ := has_finished.mp hhas
        exact Or.inr (Or.inr ⟨_, stored, List.mem_append_right _ (List.mem_singleton_self _)⟩)
      · exact Or.inl (by rwa [worker_setWorker_of_ne _ hji])
    | stop j =>
      by_cases hji : i = j
      · subst hji
        exact Or.inr (Or.inl (List.mem_append_right _ (stopped_mem_stopEvents hhas)))
      · exact Or.inl (by rwa [worker_setWorker_of_ne _ hji])
  · exact Or.inr (Or.inl (List.mem_append_left _ hstopped))
  · exact Or.inr (Or.inr ⟨status, stored, List.mem_append_left _ hcompleted⟩)

/-- The tickets that a step gives out. -/
theorem change_ticket (hchange : Change sys w w' events) :
    w'.ticket = w.ticket ∨ (w'.ticket = w.ticket + 1 ∧ (.dropped w.ticket ∈ events ∨
      ∃ i task, .popped i w.ticket task ∈ events ∧ (w'.worker i).Has w.ticket task)) := by
  cases hchange with
  | pop i raw rest hi htasks =>
    refine Or.inr ⟨rfl, Or.inr ⟨i, _, List.mem_singleton_self _, ?_⟩⟩
    rw [worker_setWorker_self]
    exact has_holding.mpr ⟨rfl, rfl⟩
  | drop raw rest htasks => exact Or.inr ⟨rfl, Or.inl (List.mem_singleton_self _)⟩
  | _ => exact Or.inl rfl

/-- The statuses that a step writes; all of them are final. -/
theorem change_keys (hchange : Change sys w w' events) :
    (w'.redis.keys = w.redis.keys ∧
      ∀ i k id status, .completed i k id status true ∉ events) ∨
      ∃ i k id status, events = [.completed i k id status true] ∧ Terminal (some status) ∧
        w'.redis.keys = Function.update w.redis.keys (taskKey id) (some status) := by
  cases hchange with
  | push events hpush =>
    exact Or.inl ⟨rfl, fun i k id status he => (aside_of_push hpush _ he).2 i k id status true rfl⟩
  | complete i k task result stored hi =>
    cases stored with
    | true => exact Or.inr ⟨i, k, task.id, _, rfl, terminal_statusOf result, rfl⟩
    | false =>
      refine Or.inl ⟨rfl, fun j k' id status he => ?_⟩
      cases List.mem_singleton.mp he
  | stop i =>
    refine Or.inl ⟨rfl, fun j k id status he => ?_⟩
    obtain ⟨_, _, heq⟩ := mem_stopEvents he
    cases heq
  | touch store => exact Or.inl ⟨rfl, fun _ _ _ _ => List.not_mem_nil⟩
  | _ =>
    refine Or.inl ⟨rfl, fun j k' id status he => ?_⟩
    cases List.mem_singleton.mp he

theorem Accounted.next (h : Accounted w log) (hchange : Change sys w w' events) :
    Accounted w' (log ++ events) := by
  constructor
  · intro k hk
    by_cases hold : k < w.ticket
    · refine (h.fate k hold).imp (List.mem_append_left _) ?_
      rintro ⟨i, task, hpopped, hfate⟩
      exact ⟨i, task, List.mem_append_left _ hpopped, hfate.next hchange⟩
    · rcases change_ticket hchange with hsame | ⟨hnext, hnew⟩
      · omega
      · obtain rfl : k = w.ticket := by omega
        refine hnew.imp (List.mem_append_right _) ?_
        rintro ⟨i, task, hpopped, hhas⟩
        exact ⟨i, task, List.mem_append_right _ hpopped, Or.inl hhas⟩
  · intro i k id status he
    rcases change_keys hchange with ⟨hkeys, hnone⟩ | ⟨j, k', id', status', rfl, hterminal, hkeys⟩
    · rw [hkeys]
      exact h.written i k id status
        ((List.mem_append.mp he).resolve_right (hnone i k id status))
    · rw [hkeys]
      by_cases hkey : taskKey id = taskKey id'
      · rw [hkey, Function.update_self]
        exact hterminal
      · rw [Function.update_of_ne hkey]
        refine h.written i k id status ((List.mem_append.mp he).resolve_right fun he => hkey ?_)
        cases List.mem_singleton.mp he
        rfl

end

/-- **What becomes of an accepted task.** In every run, at every time: the task of the
`k`-th `RPUSH` is in the list, or a running worker has it, or a final status is stored for
its ID, or it was lost in one of three ways, or JSON has given it another ID. -/
theorem tasks_accounted [DecidableEq ι] (sys : System σ) (store : σ)
    (actions : List (Action ι σ)) (w : World ι σ) (log : List (Event ι))
    (hexec : exec sys actions (World.init store) = some (w, log)) (k : Nat)
    (payload : TaskPayload) (raw : Str) (haccepted : (pushes log)[k]? = some (payload, raw, true)) :
    (w.ticket ≤ k ∧ w.redis.tasks[k - w.ticket]? = some raw) ∨
      (∃ i, (w.worker i).Has k (sys.unmarshal raw)) ∨
      Terminal (w.redis.keys (taskKey payload.id)) ∨
      Lost log k (sys.unmarshal raw) ∨ (sys.unmarshal raw).id ≠ payload.id := by
  obtain ⟨hlist, -⟩ := ordered_tracked hexec
  have haccounted : Accounted w log := by
    refine Step.exec_invariant (fun _ w log => Accounted w log)
      (fun _ _ _ _ _ _ h hstep => h.next (step_change hstep)) ⟨?_, nofun⟩ hexec
    exact fun k hk => absurd hk (Nat.not_lt_zero k)
  have hraw : (raws log)[k]? = some raw := by
    rw [raws_eq_map, List.getElem?_map, haccepted]
    rfl
  by_cases hk : w.ticket ≤ k
  · left
    refine ⟨hk, ?_⟩
    rw [hlist.queue, List.getElem?_drop, Nat.add_sub_cancel' hk, hraw]
  · right
    rcases haccounted.fate k (by omega) with hdropped | ⟨i, task, hpopped, hfate⟩
    · exact Or.inr (Or.inr (Or.inl (.dropped hdropped)))
    · obtain ⟨raw', hraw', rfl⟩ : ∃ raw', (raws log)[k]? = some raw' ∧ task = sys.unmarshal raw' :=
        hlist.task (k, task) (mem_pops.mpr ⟨i, hpopped⟩)
      obtain rfl : raw' = raw := Option.some.inj (hraw'.symm.trans hraw)
      rcases hfate with hhas | hstopped | ⟨status, stored, hcompleted⟩
      · exact Or.inl ⟨i, hhas⟩
      · exact Or.inr (Or.inr (Or.inl (.stopped i hstopped)))
      · cases stored with
        | false => exact Or.inr (Or.inr (Or.inl (.unwritten i status hcompleted)))
        | true =>
          by_cases hid : (sys.unmarshal raw').id = payload.id
          · rw [← hid]
            exact Or.inr (Or.inl (haccounted.written i k _ status hcompleted))
          · exact Or.inr (Or.inr (Or.inr hid))

/-- The worker is stopped right after it has popped the only task. The task was accepted, and
it is nowhere. -/
theorem task_lost_when_stopped :
    ∃ w log, exec smallSystem [smallCall 0 (str "b"), .pop () .ok, .stop ()] (World.init ()) =
        some (w, log) ∧
      (∃ raw, (pushes log)[0]? = some (smallTask 0 (str "b"), raw, true)) ∧
      w.redis.tasks = [] ∧ (∀ i, w.worker i = .stopped) ∧
      w.redis.keys (taskKey (smallTask 0 (str "b")).id) = none := by
  obtain ⟨raw, hcall, _⟩ := step_smallCall 0 (str "b") (World.init ())
  exact ⟨_, _, Step.exec_cons.mpr ⟨_, _, _, hcall, rfl, rfl⟩, ⟨raw, rfl⟩, rfl, fun _ => rfl, rfl⟩

theorem tasks_accounted_small :
    ∃ w log raw, exec smallSystem (smallCall 0 (str "b") :: round ()) (World.init ()) =
        some (w, log) ∧ ((w.ticket ≤ 0 ∧ w.redis.tasks[0 - w.ticket]? = some raw) ∨
      (∃ i, (w.worker i).Has 0 (smallSystem.unmarshal raw)) ∨
      Terminal (w.redis.keys (taskKey (smallTask 0 (str "b")).id)) ∨
      Lost log 0 (smallSystem.unmarshal raw) ∨
      (smallSystem.unmarshal raw).id ≠ (smallTask 0 (str "b")).id) := by
  obtain ⟨raw, hcall, _⟩ := step_smallCall 0 (str "b") (World.init ())
  have hround := exec_round smallSystem (i := ())
    (w := { World.init () with redis := rpush raw (World.init (ι := Unit) ()).redis })
    (show _ = [raw] from rfl) rfl
  have hexec := Step.exec_cons.mpr ⟨_, _, _, hcall, hround, rfl⟩
  exact ⟨_, _, raw, hexec, tasks_accounted smallSystem () _ _ _ hexec 0 (smallTask 0 (str "b")) raw
    rfl⟩

end FileEngine.Tasks
