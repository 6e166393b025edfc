import FileEngine.Deployment.Payloads
import FileEngine.Tasks.Folders
import FileEngine.Tasks.Losses

/-!
# Accepted tasks are settled

A task that is not lost by a failure of Redis or by the end of a worker's process is in the list,
or with a worker, or has a final status. And the list can always be worked off: nothing that
stands in it or in the storage keeps a worker from going on, so each worker that is at the head of
its loop empties the list by itself (`exec_rounds`), and every task of the list gets a final
status (`accepted_settled`).
-/

namespace FileEngine.Deployment

open Go Auth Authz Queue

variable {ι σ : Type}

/-! ## Runs without losses -/

/-- The call to Redis, if there is one, does not fail, and the worker is not stopped. -/
def Turn.Smooth : Turn ι → Prop
  | .pop _ .ok | .process _ | .complete _ .ok => True
  | _ => False

/-- What happens to the server is not restricted. -/
def Action.Smooth : Action ι → Prop
  | .turn t => t.Smooth
  | _ => True

/-- The event of a task that is lost. -/
def Losing : Tasks.Event ι → Prop
  | .dropped _ | .stopped _ _ _ | .completed _ _ _ _ false => True
  | _ => False

section

variable {d : Wiring σ} {w w' : World ι σ} {log events : List (Event ι)}

theorem not_losing_served (acl : ACLStore) (env : Server.Env) (call : Server.Call)
    (reply : Server.Reply) :
    ∀ e ∈ Event.tasks d (.served acl env call reply : Event ι), ¬ Losing e := by
  cases call with
  | createFolder md parentPath folderName requestedBy =>
    intro e he
    rw [Event.tasks] at he
    split at he
    · rcases Tasks.mem_createEvents he with ⟨raw, accepted, rfl, _⟩ | ⟨taskId, _, rfl⟩
      · exact id
      · exact id
    · cases he
  | _ =>
    intro e he
    cases he

variable [DecidableEq ι]

theorem not_losing_turn {t : Tasks.World ι σ} {turn : Turn ι} (hsmooth : turn.Smooth)
    {t' : Tasks.World ι σ} {events : List (Tasks.Event ι)}
    (h : Tasks.step d.tasks t turn.action = some (t', events)) : ∀ e ∈ events, ¬ Losing e := by
  match turn, hsmooth with
  | .pop i .ok, _ =>
    simp only [Turn.action, Tasks.step] at h
    split at h
    · cases h
      simp [Losing]
    · rename_i e redis hi hpop
      cases htasks : t.redis.tasks <;> simp [pop, blpop, htasks, Except.map] at hpop
    · cases h
  | .process i, _ =>
    simp only [Turn.action, Tasks.step] at h
    split at h
    · cases h
      simp [Losing]
    · cases h
  | .complete i .ok, _ =>
    simp only [Turn.action, Tasks.step] at h
    split at h
    · cases h
      simp [Losing, Outcome.applied]
    · cases h

theorem not_losing_step {a : Action ι} (hsmooth : a.Smooth)
    (hstep : step d w a = some (w', events)) :
    ∀ e ∈ events, ∀ x ∈ Event.tasks d e, ¬ Losing x := by
  cases a with
  | call env call =>
    simp only [step] at hstep
    split at hstep <;> cases hstep
    · simp [Event.tasks]
    · intro e he
      obtain rfl := List.mem_singleton.mp he
      exact not_losing_served _ _ _ _
  | acl store =>
    cases hstep
    intro e he
    cases he
  | turn t =>
    obtain ⟨⟨tasks, events'⟩, hturn, heq⟩ := Option.map_eq_some_iff.mp hstep
    cases heq
    intro e he x hx
    obtain ⟨y, hy, rfl⟩ := List.mem_map.mp he
    obtain rfl := List.mem_singleton.mp hx
    exact not_losing_turn hsmooth hturn x hy

/-- Without failures of Redis and without stops, no task is lost. -/
theorem accepted_accounted {store : σ} {acl : ACLStore} {actions : List (Action ι)}
    (hd : FoldersOnly d) (hsmooth : ∀ a ∈ actions, a.Smooth)
    (hexec : (step d).exec actions (World.init store acl) = some (w, log)) {k : Nat} {f : Folder}
    (hf : (accepted d log)[k]? = some f) (hk : k < w.ticket) :
    (∃ i, (w.worker i).Has k f.task) ∨
      Tasks.Terminal (w.redis.keys (taskKey (formatTime f.env.now))) := by
  obtain ⟨actions', hrefines⟩ := exec_refines hexec
  have hnone : ∀ x ∈ log.flatMap (Event.tasks d), ¬ Losing x := by
    intro x hx
    obtain ⟨e, he, hxe⟩ := List.mem_flatMap.mp hx
    exact Step.exec_forall (fun a ha _ _ _ => not_losing_step (hsmooth a ha)) hexec e he x hxe
  have haccounted : Tasks.Accounted w.toWorld (log.flatMap (Event.tasks d)) := by
    refine Step.exec_invariant (fun _ w log => Tasks.Accounted w log)
      (fun _ _ _ _ _ _ h hstep => h.next (Tasks.step_change hstep)) ⟨?_, nofun⟩ hrefines
    exact fun k hk => absurd hk (Nat.not_lt_zero k)
  rcases haccounted.fate k hk with hdropped | ⟨i, task, hpopped, hfate⟩
  · exact absurd trivial (hnone _ hdropped)
  · obtain ⟨f', raw, hf', hraw, rfl⟩ := popped_asked hexec hpopped
    obtain rfl : f' = f := Option.some.inj (hf'.symm.trans hf)
    rw [hd f' raw hraw] at hfate
    rcases hfate with hhas | hstopped | ⟨status, stored, hcompleted⟩
    · exact Or.inl ⟨i, hhas⟩
    · exact absurd trivial (hnone _ hstopped)
    · cases stored with
      | false => exact absurd trivial (hnone _ hcompleted)
      | true => exact Or.inr (haccounted.written i k _ status hcompleted)

/-! ## The list is worked off -/

/-- A round of a worker, without a failure of Redis. -/
def round (i : ι) : List (Action ι) :=
  [.turn (.pop i .ok), .turn (.process i), .turn (.complete i .ok)]

def rounds (i : ι) (n : Nat) : List (Action ι) := (List.replicate n (round i)).flatten

/-- A call whose task has not been taken is in the list. -/
theorem queued_of_accepted {store : σ} {acl : ACLStore} {actions : List (Action ι)}
    (hexec : (step d).exec actions (World.init store acl) = some (w, log)) {k : Nat} {f : Folder}
    (hf : (accepted d log)[k]? = some f) (hk : w.ticket ≤ k) :
    ∃ raw, f.raw d = some raw ∧ raw ∈ w.redis.tasks := by
  obtain ⟨actions', hrefines⟩ := exec_refines hexec
  obtain ⟨raw, hraw, hpushed⟩ := pushes_of_accepted hf
  refine ⟨raw, hraw, ?_⟩
  rw [(Tasks.ordered_tracked hrefines).1.queue, raws_exec hexec]
  refine List.mem_of_getElem? (i := k - w.ticket) ?_
  rw [List.getElem?_drop, Nat.add_sub_cancel' hk, hpushed]

/-- The workers run as they do in the task system alone. -/
theorem exec_turns (turns : List (Turn ι)) {t : Tasks.World ι σ} {events : List (Tasks.Event ι)}
    (h : Tasks.exec d.tasks (turns.map Turn.action) w.toWorld = some (t, events)) :
    (step d).exec (turns.map .turn) w = some ({ w with toWorld := t }, events.map .task) := by
  induction turns generalizing w events with
  | nil =>
    cases h
    rfl
  | cons turn turns ih =>
    obtain ⟨t₁, first, rest, hturn, hrest, rfl⟩ := Step.exec_cons.mp h
    refine Step.exec_cons.mpr ⟨{ w with toWorld := t₁ }, first.map .task, rest.map .task, ?_,
      ih (w := { w with toWorld := t₁ }) hrest, List.map_append⟩
    exact Option.map_eq_some_iff.mpr ⟨_, hturn, rfl⟩

/-- A round takes the head of the list, processes it and writes its status. -/
theorem exec_round {i : ι} {raw : Str} {rest : List Str} (htasks : w.redis.tasks = raw :: rest)
    (hready : w.worker i = .ready) :
    let task := d.unmarshal raw
    let result := Tasks.process d.backend task w.store
    ∃ w' log, (step d).exec (round i) w = some (w', log) ∧
      w'.redis = ⟨rest, Function.update w.redis.keys (taskKey task.id)
        (some (Tasks.statusOf result.1))⟩ ∧
      w'.store = result.2 ∧ w'.worker = w.worker :=
  ⟨_, _, exec_turns [.pop i .ok, .process i, .complete i .ok]
    (Tasks.exec_round d.tasks htasks hready), rfl, rfl, rfl⟩

/-- A worker at the head of its loop empties the list. -/
theorem exec_rounds {i : ι} (hready : w.worker i = .ready) :
    ∃ w' log, (step d).exec (rounds i w.redis.tasks.length) w = some (w', log) ∧
      w'.redis.tasks = [] ∧ w'.worker = w.worker ∧
      (∀ key, Tasks.Terminal (w.redis.keys key) → Tasks.Terminal (w'.redis.keys key)) ∧
      ∀ raw ∈ w.redis.tasks, Tasks.Terminal (w'.redis.keys (taskKey (d.unmarshal raw).id)) := by
  generalize htasks : w.redis.tasks = tasks
  induction tasks generalizing w with
  | nil => exact ⟨w, [], rfl, htasks, rfl, fun _ h => h, nofun⟩
  | cons raw rest ih =>
    obtain ⟨w₁, log₁, hround, hredis, _, hworker⟩ := exec_round (d := d) htasks hready
    obtain ⟨w', log', hrest, hempty, hsame, hkeep, hwritten⟩ :=
      ih (w := w₁) (hworker ▸ hready) (congrArg Redis.tasks hredis)
    have hkeys : w₁.redis.keys = Function.update w.redis.keys (taskKey (d.unmarshal raw).id)
        (some (Tasks.statusOf (Tasks.process d.backend (d.unmarshal raw) w.store).1)) :=
      congrArg Redis.keys hredis
    refine ⟨w', log₁ ++ log', ?_, hempty, hsame.trans hworker, ?_, ?_⟩
    · rw [rounds, List.length_cons, List.replicate_succ, List.flatten_cons]
      exact Step.exec_append.mpr ⟨w₁, log₁, log', hround, hrest, rfl⟩
    · intro key hkey
      refine hkeep key ?_
      rw [hkeys]
      by_cases hsame : key = taskKey (d.unmarshal raw).id
      · rw [hsame, Function.update_self]
        exact Tasks.terminal_statusOf _
      · rwa [Function.update_of_ne hsame]
    · intro raw' hraw'
      rcases List.mem_cons.mp hraw' with rfl | hraw'
      · refine hkeep _ ?_
        rw [hkeys, Function.update_self]
        exact Tasks.terminal_statusOf _
      · exact hwritten raw' hraw'

end

variable [DecidableEq ι]

/-- **Accepted tasks are settled.** In every run in which no worker is stopped and no call of a
worker to Redis fails, on every storage: each worker at the head of its loop empties the list in
as many rounds as there are tasks in it. After that every call that had put a task into the list
has a final status under its ID, unless another worker has its task. -/
theorem accepted_settled (lib : JwtLib) (verifier : JWTVerifier) (backend : Storage σ)
    (foldRune : Nat → Nat) (store : σ) (acl : ACLStore) (actions : List (Action ι))
    (w : World ι σ) (log : List (Event ι)) (i : ι) (hsmooth : ∀ a ∈ actions, a.Smooth)
    (hexec : (step (jsonWiring lib verifier backend foldRune)).exec actions
      (World.init store acl) = some (w, log)) (hready : w.worker i = .ready) :
    let d := jsonWiring lib verifier backend foldRune
    ∃ w' log', (step d).exec (rounds i w.redis.tasks.length) w = some (w', log') ∧
      w'.redis.tasks = [] ∧ w'.worker = w.worker ∧ ∀ k f, (accepted d log)[k]? = some f →
        (∃ j, (w.worker j).Has k f.task) ∨
          Tasks.Terminal (w'.redis.keys (taskKey (formatTime f.env.now))) := by
  intro d
  have hd : FoldersOnly d := foldersOnly_json lib verifier backend foldRune
  obtain ⟨w', log', hrounds, hempty, hworker, hkeep, hwritten⟩ := exec_rounds (d := d) hready
  refine ⟨w', log', hrounds, hempty, hworker, fun k f hf => ?_⟩
  by_cases hk : k < w.ticket
  · exact (accepted_accounted hd hsmooth hexec hf hk).imp_right (hkeep _)
  · obtain ⟨raw, hraw, hmem⟩ := queued_of_accepted hexec hf (Nat.le_of_not_lt hk)
    have hterminal := hwritten raw hmem
    rw [hd f raw hraw] at hterminal
    exact Or.inr hterminal

/-- One call, and one round. -/
theorem accepted_settled_small :
    let d := jsonWiring sampleLib Server.demo.verifier Tasks.quietStorage id
    ∃ w log w' log', (step d).exec ((folderRun (str "/a") (str "b")).take 1)
        (World.init () demoACL) = some (w, log) ∧
      (step d).exec (rounds () w.redis.tasks.length) w = some (w', log') ∧
      w'.redis.tasks = [] ∧ Tasks.Terminal (w'.redis.keys (taskKey (formatTime 0))) := by
  intro d
  let actions := (folderRun (str "/a") (str "b")).take 1
  have hrun : ((step d).exec actions (World.init () demoACL)).map
      (fun out => (accepted d out.2).map fun f => f.env.now) = some [0] := by
    decide +kernel
  obtain ⟨⟨w, log⟩, hexec, hnow⟩ := Option.map_eq_some_iff.mp hrun
  obtain ⟨f, hf, hzero⟩ := List.map_eq_singleton_iff.mp hnow
  have hready : ∀ j, w.worker j = .ready := by
    obtain ⟨w₁, events, log', hstep, hnil, _⟩ := Step.exec_cons.mp hexec
    cases hnil
    simp only [step] at hstep
    split at hstep <;> cases hstep <;> exact fun _ => rfl
  obtain ⟨w', log', hrounds, hempty, _, hsettled⟩ := accepted_settled sampleLib
    Server.demo.verifier Tasks.quietStorage id () demoACL actions w log ()
    (by simp [actions, folderRun, Action.Smooth]) hexec (hready ())
  refine ⟨w, log, w', log', hexec, hrounds, hempty, ?_⟩
  rw [← hzero]
  refine (hsettled 0 f (by rw [show accepted _ log = _ from hf]; rfl)).resolve_left ?_
  rintro ⟨j, hhas⟩
  rw [hready j] at hhas
  exact Tasks.has_ready hhas

end FileEngine.Deployment
