import FileEngine.Go.Runs
import FileEngine.Server.Outcomes
import FileEngine.Tasks.Delivery

/-!
# The deployed system

`cmd/file-engine/main.go` and `cmd/worker/main.go` with `internal/di/container.go`: one server
and any number of workers, on the same storage and the same Redis. A run is an interleaving of
calls to the server, of the steps of the workers, and of changes to what the ACL store answers;
the store is not changed by the server itself. A call is taken as one step, and so is the
processing of a task.

A call whose authorization does not end is `hung`: it holds its connection, and nothing else
waits for it.

`purge` takes the calls out of a run that are not let through; `exec_purge` says that nothing
else of the run changes.
-/

namespace FileEngine.Deployment

open Go Auth Authz Queue

/-- What is fixed when the processes are started. -/
structure Wiring (σ : Type) where
  lib : JwtLib
  verifier : JWTVerifier
  backend : Storage σ
  marshal : TaskPayload → Except Str Str
  unmarshal : Str → TaskPayload

section

variable {ι σ : Type}

def Wiring.server (d : Wiring σ) : Server.Config σ :=
  ⟨d.lib, d.verifier, d.backend, ⟨d.marshal, formatTime⟩⟩

def Wiring.tasks (d : Wiring σ) : Tasks.System σ := ⟨d.marshal, d.unmarshal, d.backend⟩

/-- The processes as they are, on some backend. -/
def jsonWiring (lib : JwtLib) (verifier : JWTVerifier) (backend : Storage σ)
    (foldRune : Nat → Nat) : Wiring σ where
  lib := lib
  verifier := verifier
  backend := backend
  marshal := jsonCodec.marshal
  unmarshal raw := (unmarshalPayload foldRune raw).1

structure World (ι σ : Type) extends Tasks.World ι σ where
  acl : ACLStore

/-- What the server has of the world. -/
def World.server (w : World ι σ) : Server.World σ := ⟨w.acl, w.store, w.redis⟩

/-- A step of a worker. -/
inductive Turn (ι : Type)
  | pop (i : ι) (outcome : Outcome)
  | process (i : ι)
  | complete (i : ι) (outcome : Outcome)
  | stop (i : ι)

def Turn.action : Turn ι → Tasks.Action ι σ
  | .pop i outcome => .pop i outcome
  | .process i => .process i
  | .complete i outcome => .complete i outcome
  | .stop i => .stop i

inductive Action (ι : Type)
  | call (env : Server.Env) (call : Server.Call)
  /-- From now on the ACL store gives these answers. -/
  | acl (store : ACLStore)
  | turn (t : Turn ι)

inductive Event (ι : Type)
  /-- The call was answered. The store is the one that the resolver asked. -/
  | served (acl : ACLStore) (env : Server.Env) (call : Server.Call) (reply : Server.Reply)
  | hung (acl : ACLStore) (env : Server.Env) (call : Server.Call)
  | task (e : Tasks.Event ι)

def step [DecidableEq ι] (d : Wiring σ) : Step (World ι σ) (Action ι) (Event ι)
  | w, .call env call =>
      match Server.step d.server env call w.server with
      | none => some (w, [.hung w.acl env call])
      | some (reply, s) =>
          some ({ w with acl := s.acl, store := s.storage, redis := s.queue },
            [.served w.acl env call reply])
  | w, .acl store => some ({ w with acl := store }, [])
  | w, .turn t =>
      (Tasks.step d.tasks w.toWorld t.action).map fun (tasks, events) =>
        ({ w with toWorld := tasks }, events.map .task)

/-- An empty queue and idle workers. -/
def World.init (store : σ) (acl : ACLStore) : World ι σ := { Tasks.World.init store with acl }

/-! ## Runs without the calls that are not let through -/

/-- The actions without the calls that are not let through. Which they are depends on the
answers of the ACL store at that point of the run. -/
def purge (d : Wiring σ) : ACLStore → List (Action ι) → List (Action ι)
  | _, [] => []
  | acl, .call env call :: rest =>
      if Server.decision d.server acl call = some true then
        .call env call :: purge d acl rest
      else purge d acl rest
  | _, .acl store :: rest => .acl store :: purge d store rest
  | acl, .turn t :: rest => .turn t :: purge d acl rest

/-- The event is not one of a call that was not let through. -/
def Event.kept (d : Wiring σ) : Event ι → Bool
  | .served acl _ call _ | .hung acl _ call => Server.decision d.server acl call = some true
  | .task _ => true

theorem filter_kept_tasks (d : Wiring σ) (events : List (Tasks.Event ι)) :
    (events.map Event.task).filter (Event.kept d) = events.map .task := by
  rw [List.filter_eq_self]
  intro e he
  obtain ⟨x, _, rfl⟩ := List.mem_map.mp he
  rfl

/-! ## What a step can do -/

/-- A call that is let through, as the server leaves the world. -/
def World.after (w : World ι σ) (d : Wiring σ) (env : Server.Env) (call : Server.Call) :
    World ι σ :=
  let s := (Server.carryOut d.server env call w.server).2
  { w with store := s.storage, redis := s.queue }

variable [DecidableEq ι] {d : Wiring σ} {w w' : World ι σ} {events : List (Event ι)}

theorem step_letThrough {call : Server.Call}
    (h : Server.decision d.server w.acl call = some true) (env : Server.Env) :
    step d w (.call env call) = some (w.after d env call,
      [.served w.acl env call (Server.carryOut d.server env call w.server).1]) := by
  have hacl := Server.carryOut_acl d.server env call w.server
  simp only [step, Server.step_letThrough (w := w.server) h env, World.after, hacl]
  rfl

theorem step_turnedAway {call : Server.Call}
    (h : Server.decision d.server w.acl call ≠ some true) (env : Server.Env) :
    step d w (.call env call) = some (w, [.hung w.acl env call]) ∨
      ∃ reply, reply.Refused ∧
        step d w (.call env call) = some (w, [.served w.acl env call reply]) := by
  obtain ⟨reply, hrefused, hreply⟩ := Server.step_turnedAway h env
  have hstep := hreply w.store w.redis
  cases reply with
  | none =>
    refine Or.inl ?_
    simp only [step, World.server, hstep]
    rfl
  | some reply =>
    refine Or.inr ⟨reply, hrefused reply rfl, ?_⟩
    simp only [step, World.server, hstep]
    rfl

/-- A step of a worker reports one event at most, and appends nothing to the list. -/
theorem turn_events {sys : Tasks.System σ} {t : Tasks.World ι σ} {turn : Turn ι}
    {t' : Tasks.World ι σ} {events : List (Tasks.Event ι)}
    (h : Tasks.step sys t turn.action = some (t', events)) :
    events.length ≤ 1 ∧ Tasks.raws events = [] := by
  cases turn with
  | pop i outcome =>
    simp only [Turn.action, Tasks.step] at h
    split at h
    · cases h
      exact ⟨le_rfl, rfl⟩
    · split at h
      · cases h
        exact ⟨le_rfl, rfl⟩
      · cases h
        exact ⟨Nat.zero_le _, rfl⟩
    · cases h
  | process i =>
    simp only [Turn.action, Tasks.step] at h
    split at h
    · cases h
      exact ⟨le_rfl, rfl⟩
    · cases h
  | complete i outcome =>
    simp only [Turn.action, Tasks.step] at h
    split at h
    · cases h
      exact ⟨le_rfl, rfl⟩
    · cases h
  | stop i =>
    cases h
    refine ⟨?_, Tasks.raws_stopEvents i _⟩
    cases t.worker i <;> simp [Tasks.Worker.stopEvents]

/-- What a step of a worker does to the storage, to the statuses, and to the results that are
still to be written. -/
inductive Turned (sys : Tasks.System σ) (t : Tasks.World ι σ) : Tasks.World ι σ → Prop
  | aside {t' : Tasks.World ι σ} (hstore : t'.store = t.store)
      (hkeys : t'.redis.keys = t.redis.keys)
      (hfinished : ∀ i k task result, t'.worker i = .finished k task result →
        t.worker i = .finished k task result) : Turned sys t t'
  | processed {i : ι} {k : Nat} {task : TaskPayload} (hi : t.worker i = .holding k task) :
      Turned sys t (Tasks.World.setWorker
        { t with store := (Tasks.process sys.storage task t.store).2 } i
        (.finished k task (Tasks.process sys.storage task t.store).1))
  | completed {i : ι} {k : Nat} {task : TaskPayload} {result : Except Str Unit}
      (outcome : Outcome) (hi : t.worker i = .finished k task result) :
      Turned sys t (Tasks.World.setWorker
        { t with redis := (complete outcome task.id (Tasks.statusOf result) t.redis).2 } i .ready)

theorem turned_of_step {sys : Tasks.System σ} {t t' : Tasks.World ι σ} {turn : Turn ι}
    {events : List (Tasks.Event ι)} (h : Tasks.step sys t turn.action = some (t', events)) :
    Turned sys t t' := by
  have hother : ∀ {i j : ι} {state : Tasks.Worker} {k : Nat} {task : TaskPayload}
      {result : Except Str Unit}, (state = .finished k task result → False) →
      Function.update t.worker i state j = .finished k task result →
      t.worker j = .finished k task result := by
    intro i j state k task result hstate hj
    by_cases hij : j = i
    · rw [hij, Function.update_self] at hj
      exact absurd hj hstate
    · rwa [Function.update_of_ne hij] at hj
  cases turn with
  | pop i outcome =>
    simp only [Turn.action, Tasks.step] at h
    split at h
    · rename_i task redis hi hpop
      cases h
      refine .aside rfl ?_ fun j k task result => hother fun h => by cases h
      rcases pop_cases hpop with ⟨_, _, _, _, rfl⟩ | ⟨_, _, _, _, _, rfl⟩ | ⟨_, _, rfl⟩ <;> rfl
    · rename_i e redis hi hpop
      have hkeys : redis.keys = t.redis.keys := by
        rcases pop_cases hpop with ⟨_, _, _, _, rfl⟩ | ⟨_, _, _, _, _, rfl⟩ | ⟨_, _, rfl⟩ <;> rfl
      split at h
      · cases h
        exact .aside rfl hkeys fun _ _ _ _ hj => hj
      · cases h
        exact .aside rfl hkeys fun _ _ _ _ hj => hj
    · cases h
  | process i =>
    simp only [Turn.action, Tasks.step] at h
    split at h
    · rename_i k task hi
      cases h
      exact .processed hi
    · cases h
  | complete i outcome =>
    simp only [Turn.action, Tasks.step] at h
    split at h
    · rename_i k task result hi
      cases h
      exact .completed outcome hi
    · cases h
  | stop i =>
    cases h
    exact .aside rfl rfl fun j k task result => hother fun h => by cases h

theorem step_single (d : Wiring σ) : Step.Single (step (ι := ι) d) := by
  intro w a w' events h
  cases a with
  | call env call =>
    by_cases hd : Server.decision d.server w.acl call = some true
    · cases (step_letThrough hd env).symm.trans h
      rfl
    · rcases step_turnedAway hd env with hstep | ⟨reply, _, hstep⟩
      · cases hstep.symm.trans h
        rfl
      · cases hstep.symm.trans h
        rfl
  | acl store =>
    cases h
    exact Nat.zero_le _
  | turn t =>
    obtain ⟨⟨tasks, events'⟩, hturn, heq⟩ := Option.map_eq_some_iff.mp h
    cases heq
    rw [List.length_map]
    exact (turn_events hturn).1

/-! ## Noninterference -/

/-- **Calls that are not let through do not interfere.** In every run, whoever calls without a
valid identity, without the permission, or with a path on which authorization does not end,
might as well not have called: without these calls the run leads to the same world, and all
other calls and all workers see the same. -/
theorem exec_purge (d : Wiring σ) (actions : List (Action ι)) (w : World ι σ) :
    (step d).exec (purge d w.acl actions) w =
      ((step d).exec actions w).map fun (w', log) => (w', log.filter (Event.kept d)) := by
  induction actions generalizing w with
  | nil => rfl
  | cons a rest ih =>
    cases a with
    | call env call =>
      by_cases hd : Server.decision d.server w.acl call = some true
      · have hstep := step_letThrough hd env
        have hkept : ∀ reply, Event.kept d (.served w.acl env call reply : Event ι) = true :=
          fun _ => decide_eq_true hd
        have hrest := ih (w.after d env call)
        simp only [purge, if_pos hd, Step.exec, hstep]
        rw [show purge d w.acl rest = purge d (w.after d env call).acl rest from rfl, hrest]
        cases (step d).exec rest (w.after d env call) with
        | none => rfl
        | some out => simp [hkept]
      · have hkept : ∀ reply, Event.kept d (.served w.acl env call reply : Event ι) = false :=
          fun _ => decide_eq_false hd
        have hhung : Event.kept d (.hung w.acl env call : Event ι) = false :=
          decide_eq_false hd
        simp only [purge, if_neg hd, ih w]
        rcases step_turnedAway hd env with hstep | ⟨reply, _, hstep⟩
        · simp only [Step.exec, hstep]
          cases (step d).exec rest w with
          | none => rfl
          | some out => simp [hhung]
        · simp only [Step.exec, hstep]
          cases (step d).exec rest w with
          | none => rfl
          | some out => simp [hkept]
    | acl store =>
      have hrest := ih { w with acl := store }
      simp only [purge, Step.exec, step]
      rw [hrest]
      cases (step d).exec rest { w with acl := store } <;> rfl
    | turn t =>
      simp only [purge, Step.exec, step]
      cases Tasks.step d.tasks w.toWorld t.action with
      | none => rfl
      | some out =>
        have hrest := ih { w with toWorld := out.1 }
        simp only [Option.map_some]
        rw [hrest]
        cases (step d).exec rest { w with toWorld := out.1 } with
        | none => rfl
        | some out' => simp [filter_kept_tasks]

end

end FileEngine.Deployment
