import FileEngine.Go.Runs
import FileEngine.Queue.Payload
import FileEngine.Storage.Interface

/-!
# Tasks

`internal/app/tasks`: the processor, the loop of a worker, and the system of enqueuers
and workers around one Redis list.

A worker is at the head of its loop, holds a popped task, or has processed one and is
about to write the status. Each of its calls is a step of its own. A worker can be
stopped at every point: at the head of the loop that is what a cancelled context leads
to, elsewhere the process has ended. A call of an enqueuer is one step, since all that
others see of it is the `RPUSH`; the reading of the clock before that is an argument. The
storage may be changed by others at any time.

A `Change` is what a step can do; nothing else unfolds `step`.
-/

namespace FileEngine.Tasks

open Go Queue

/-! ## The processor -/

/-- `t.Params[key]`: a missing key reads as the empty string. -/
def param (t : TaskPayload) (key : Str) : Str := (t.params key).getD []

def process {σ : Type} (st : Storage σ) (t : TaskPayload) : Op σ Unit := fun s =>
  if t.type = str "create_folder" then
    let parent := param t (str "parent")
    let name := param t (str "name")
    if parent = [] ∨ name = [] then (.error (str "missing params"), s)
    else st.createFolder (trimSuffix parent [slash] ++ [slash] ++ name) s
  else if t.type = str "move_file" then
    let src := param t (str "src")
    let dst := param t (str "dst")
    if src = [] ∨ dst = [] then (.error (str "missing params"), s)
    else st.move src dst s
  else (.error (str "unknown task type " ++ t.type), s)

/-- The status that a worker writes for the result of `Process`. -/
def statusOf : Except Str Unit → Str
  | .ok _ => str "success"
  | .error _ => str "failed"

/-! ## Enqueuers and workers -/

/-- The encoding of payloads, the clock's format being that of the code, and the storage of
the workers. -/
structure System (σ : Type) where
  marshal : TaskPayload → Except Str Str
  unmarshal : Str → TaskPayload
  storage : Storage σ

def System.codec {σ : Type} (sys : System σ) : Codec := ⟨sys.marshal, formatTime⟩

/-- Where a worker is in its loop. The ticket is the number of the task in the order in which
tasks were taken from the list. No code reads it; it tells equal tasks apart. -/
inductive Worker
  | ready
  | holding (ticket : Nat) (task : TaskPayload)
  | finished (ticket : Nat) (task : TaskPayload) (result : Except Str Unit)
  | stopped

structure World (ι σ : Type) where
  redis : Redis
  store : σ
  worker : ι → Worker
  /-- How many tasks were taken from the list. -/
  ticket : Nat

inductive Action (ι σ : Type)
  | enqueue (payload : TaskPayload) (outcome : Outcome)
  | createFolder (now : Nat) (parentPath folderName requestedBy : Str) (outcome : Outcome)
  | pop (i : ι) (outcome : Outcome)
  | process (i : ι)
  | complete (i : ι) (outcome : Outcome)
  | stop (i : ι)
  | touch (store : σ)

inductive Event (ι : Type)
  /-- The encoded payload was appended to the list, and `Enqueue` returned `nil` or not. -/
  | pushed (payload : TaskPayload) (raw : Str) (accepted : Bool)
  /-- `EnqueueCreateFolder` returned an ID. -/
  | returned (now : Nat) (id : Str) (payload : TaskPayload)
  | popped (i : ι) (ticket : Nat) (task : TaskPayload)
  /-- The head was taken from the list, but the reply was lost. -/
  | dropped (ticket : Nat)
  | processed (i : ι) (ticket : Nat) (task : TaskPayload) (result : Except Str Unit)
  /-- The status was written, or the write has failed without an effect. -/
  | completed (i : ι) (ticket : Nat) (id status : Str) (stored : Bool)
  /-- The worker was stopped while it had this task. -/
  | stopped (i : ι) (ticket : Nat) (task : TaskPayload)

variable {ι σ : Type}

/-- The events of an `Enqueue`. -/
def pushEvents (codec : Codec) (outcome : Outcome) (payload : TaskPayload) (accepted : Bool) :
    List (Event ι) :=
  (appended codec outcome payload).toList.map fun raw => .pushed payload raw accepted

/-- The events of an `EnqueueCreateFolder`. -/
def createEvents (sys : System σ) (now : Nat) (outcome : Outcome) (payload : TaskPayload)
    (reply : Except Str Str) : List (Event ι) :=
  pushEvents sys.codec outcome payload reply.isOk ++
    reply.toOption.toList.map fun id => .returned now id payload

def Worker.stopEvents (i : ι) : Worker → List (Event ι)
  | .holding ticket task | .finished ticket task _ => [.stopped i ticket task]
  | .ready | .stopped => []

def World.setWorker [DecidableEq ι] (w : World ι σ) (i : ι) (state : Worker) : World ι σ :=
  { w with worker := Function.update w.worker i state }

def step [DecidableEq ι] (sys : System σ) (w : World ι σ) :
    Action ι σ → Option (World ι σ × List (Event ι))
  | .enqueue payload outcome =>
      let (reply, redis) := enqueue sys.codec outcome payload w.redis
      some ({ w with redis }, pushEvents sys.codec outcome payload reply.isOk)
  | .createFolder now parentPath folderName requestedBy outcome =>
      let payload := createFolderPayload sys.codec now parentPath folderName requestedBy
      let (reply, redis) :=
        enqueueCreateFolder sys.codec now outcome parentPath folderName requestedBy w.redis
      some ({ w with redis }, createEvents sys now outcome payload reply)
  | .pop i outcome =>
      match w.worker i, pop sys.unmarshal outcome w.redis with
      | .ready, some (.ok task, redis) =>
          some (World.setWorker { w with redis, ticket := w.ticket + 1 } i (.holding w.ticket task),
            [.popped i w.ticket task])
      | .ready, some (.error _, redis) =>
          -- the worker sleeps and tries again; the head may be gone
          if redis.tasks.length < w.redis.tasks.length then
            some ({ w with redis, ticket := w.ticket + 1 }, [.dropped w.ticket])
          else some ({ w with redis }, [])
      | _, _ => none
  | .process i =>
      match w.worker i with
      | .holding ticket task =>
          let (result, store) := process sys.storage task w.store
          some (World.setWorker { w with store } i (.finished ticket task result),
            [.processed i ticket task result])
      | _ => none
  | .complete i outcome =>
      match w.worker i with
      | .finished ticket task result =>
          let (_, redis) := complete outcome task.id (statusOf result) w.redis
          some (World.setWorker { w with redis } i .ready,
            [.completed i ticket task.id (statusOf result) outcome.applied])
      | _ => none
  | .stop i => some (w.setWorker i .stopped, (w.worker i).stopEvents i)
  | .touch store => some ({ w with store }, [])

/-- A run: the world that a list of actions leads to, and all events in their order. -/
abbrev exec [DecidableEq ι] (sys : System σ) (actions : List (Action ι σ)) (w : World ι σ) :
    Option (World ι σ × List (Event ι)) :=
  Step.exec (step sys) actions w

/-- Nothing is enqueued, no status is stored, and all workers are at the head of their loops. -/
def World.init (store : σ) : World ι σ := ⟨⟨[], fun _ => none⟩, store, fun _ => .ready, 0⟩

/-! ## What a step can do -/

/-- What was appended to the list. -/
def raws (log : List (Event ι)) : List Str :=
  log.filterMap fun | .pushed _ raw _ => some raw | _ => none

/-- The events of an enqueuer. -/
def Event.IsPush (sys : System σ) : Event ι → Prop
  | .pushed payload raw _ => sys.marshal payload = .ok raw
  | .returned _ _ _ => True
  | _ => False

inductive Change [DecidableEq ι] (sys : System σ) (w : World ι σ) :
    World ι σ → List (Event ι) → Prop
  | push (events : List (Event ι)) (hpush : ∀ e ∈ events, e.IsPush sys) :
      Change sys w { w with redis := { w.redis with tasks := w.redis.tasks ++ raws events } } events
  | pop (i : ι) (raw : Str) (rest : List Str) (hi : w.worker i = .ready)
      (htasks : w.redis.tasks = raw :: rest) :
      Change sys w (World.setWorker
          { w with redis := { w.redis with tasks := rest }, ticket := w.ticket + 1 } i
          (.holding w.ticket (sys.unmarshal raw)))
        [.popped i w.ticket (sys.unmarshal raw)]
  | drop (raw : Str) (rest : List Str) (htasks : w.redis.tasks = raw :: rest) :
      Change sys w { w with redis := { w.redis with tasks := rest }, ticket := w.ticket + 1 }
        [.dropped w.ticket]
  | process (i : ι) (k : Nat) (task : TaskPayload) (result : Except Str Unit) (store : σ)
      (hi : w.worker i = .holding k task) :
      Change sys w (World.setWorker { w with store } i (.finished k task result))
        [.processed i k task result]
  | complete (i : ι) (k : Nat) (task : TaskPayload) (result : Except Str Unit) (stored : Bool)
      (hi : w.worker i = .finished k task result) :
      Change sys w (World.setWorker
          { w with redis := if stored then set (taskKey task.id) (statusOf result) w.redis
                            else w.redis } i .ready)
        [.completed i k task.id (statusOf result) stored]
  | stop (i : ι) : Change sys w (w.setWorker i .stopped) ((w.worker i).stopEvents i)
  | touch (store : σ) : Change sys w { w with store } []

theorem raws_pushEvents (codec : Codec) (outcome : Outcome) (payload : TaskPayload)
    (accepted : Bool) : raws (pushEvents codec outcome payload accepted : List (Event ι)) =
      (appended codec outcome payload).toList := by
  unfold raws pushEvents
  cases appended codec outcome payload <;> rfl

theorem mem_pushEvents {sys : System σ} {outcome : Outcome} {payload : TaskPayload}
    {accepted : Bool} {e : Event ι} (h : e ∈ pushEvents sys.codec outcome payload accepted) :
    ∃ raw, e = .pushed payload raw accepted ∧ sys.marshal payload = .ok raw := by
  obtain ⟨raw, hraw, rfl⟩ := List.mem_map.mp h
  rw [Option.mem_toList] at hraw
  unfold appended at hraw
  split at hraw
  · cases hraw
  · rename_i b hb
    split at hraw
    · cases hraw
      exact ⟨_, rfl, hb⟩
    · cases hraw

theorem mem_createEvents {sys : System σ} {now : Nat} {outcome : Outcome} {payload : TaskPayload}
    {reply : Except Str Str} {e : Event ι} (h : e ∈ createEvents sys now outcome payload reply) :
    (∃ raw accepted, e = .pushed payload raw accepted ∧ sys.marshal payload = .ok raw) ∨
      ∃ id, reply = .ok id ∧ e = .returned now id payload := by
  rcases List.mem_append.mp h with h | h
  · obtain ⟨raw, rfl, hraw⟩ := mem_pushEvents h
    exact Or.inl ⟨raw, _, rfl, hraw⟩
  · obtain ⟨id, hid, rfl⟩ := List.mem_map.mp h
    cases reply with
    | error e => cases hid
    | ok id' =>
      obtain rfl : id = id' := by simpa [Except.toOption] using hid
      exact Or.inr ⟨id, rfl, rfl⟩

theorem mem_stopEvents {i : ι} {state : Worker} {e : Event ι} (h : e ∈ state.stopEvents i) :
    ∃ k task, e = .stopped i k task := by
  cases state with
  | ready | stopped => cases h
  | holding k task | finished k task result => exact ⟨k, task, List.mem_singleton.mp h⟩

theorem raws_append (log events : List (Event ι)) :
    raws (log ++ events) = raws log ++ raws events :=
  List.filterMap_append

theorem raws_createEvents (sys : System σ) (now : Nat) (outcome : Outcome) (payload : TaskPayload)
    (reply : Except Str Str) :
    raws (createEvents sys now outcome payload reply : List (Event ι)) =
      (appended sys.codec outcome payload).toList := by
  have hreturned : raws (reply.toOption.toList.map fun id =>
      (.returned now id payload : Event ι)) = [] := by
    cases reply <;> rfl
  rw [createEvents, raws_append, raws_pushEvents, hreturned, List.append_nil]

/-- The calls of the enqueuers. -/
theorem change_push [DecidableEq ι] {sys : System σ} {w : World ι σ} {outcome : Outcome}
    {payload : TaskPayload} {events : List (Event ι)} (hpush : ∀ e ∈ events, e.IsPush sys)
    (hraws : raws events = (appended sys.codec outcome payload).toList) :
    Change sys w { w with redis := (enqueue sys.codec outcome payload w.redis).2 } events := by
  rw [enqueue_state, ← hraws]
  exact .push events hpush

theorem change_pop [DecidableEq ι] {sys : System σ} {w w' : World ι σ} {i : ι} {outcome : Outcome}
    {events : List (Event ι)} (h : step sys w (.pop i outcome) = some (w', events)) :
    Change sys w w' events := by
  simp only [step] at h
  split at h
  · rename_i task redis hi hpop
    rcases pop_cases hpop with ⟨raw, rest, htasks, htask, rfl⟩ | ⟨e, _, _, _, he, _⟩ | ⟨e, he, _⟩
    · cases htask
      cases h
      exact .pop i raw rest hi htasks
    · cases he
    · cases he
  · rename_i e redis hi hpop
    rcases pop_cases hpop with ⟨_, _, _, htask, _⟩ | ⟨e, raw, rest, htasks, _, rfl⟩ | ⟨e, _, rfl⟩
    · cases htask
    · rw [if_pos (by simp [htasks])] at h
      cases h
      exact .drop raw rest htasks
    · rw [if_neg (Nat.lt_irrefl _)] at h
      cases h
      exact .touch w.store
  · cases h

theorem step_change [DecidableEq ι] {sys : System σ} {w w' : World ι σ} {a : Action ι σ}
    {events : List (Event ι)} (h : step sys w a = some (w', events)) :
    Change sys w w' events := by
  cases a with
  | enqueue payload outcome =>
    simp only [step, Option.some.injEq, Prod.mk.injEq] at h
    obtain ⟨rfl, rfl⟩ := h
    refine change_push (fun e he => ?_) (raws_pushEvents _ _ _ _)
    obtain ⟨raw, rfl, hraw⟩ := mem_pushEvents he
    exact hraw
  | createFolder now parentPath folderName requestedBy outcome =>
    simp only [step, Option.some.injEq, Prod.mk.injEq] at h
    obtain ⟨rfl, rfl⟩ := h
    rw [enqueueCreateFolder_state]
    refine change_push (fun e he => ?_) (raws_createEvents sys now outcome _ _)
    rcases mem_createEvents he with ⟨raw, accepted, rfl, hraw⟩ | ⟨id, _, rfl⟩
    · exact hraw
    · exact trivial
  | pop i outcome => exact change_pop h
  | process i =>
    simp only [step] at h
    split at h
    · rename_i k task hi
      cases h
      exact .process i k task _ _ hi
    · cases h
  | complete i outcome =>
    simp only [step] at h
    split at h
    · rename_i k task result hi
      simp only [complete, Option.some.injEq, Prod.mk.injEq, outcome.run_state] at h
      obtain ⟨rfl, rfl⟩ := h
      exact .complete i k task result outcome.applied hi
    · cases h
  | stop i =>
    cases h
    exact .stop i
  | touch store =>
    cases h
    exact .touch store

/-! ## What is enqueued -/

/-- The payload of an enqueuer's call. -/
def Action.payload (sys : System σ) : Action ι σ → Option TaskPayload
  | .enqueue payload _ => some payload
  | .createFolder now parentPath folderName requestedBy _ =>
      some (createFolderPayload sys.codec now parentPath folderName requestedBy)
  | _ => none

/-- JSON gives a payload back as it was. -/
def RoundTrips (sys : System σ) (payload : TaskPayload) : Prop :=
  ∀ raw, sys.marshal payload = .ok raw → sys.unmarshal raw = payload

/-- The event is one of an enqueuer. -/
def Event.OfEnqueuer : Event ι → Prop
  | .pushed _ _ _ | .returned _ _ _ => True
  | _ => False

/-- Where the events of the enqueuers come from. -/
theorem step_enqueuer [DecidableEq ι] {sys : System σ} {w w' : World ι σ} {a : Action ι σ}
    {events : List (Event ι)} (h : step sys w a = some (w', events)) {e : Event ι}
    (he : e ∈ events) (hof : e.OfEnqueuer) :
    ∃ payload, a.payload sys = some payload ∧
      ((∃ raw accepted, e = .pushed payload raw accepted ∧ sys.marshal payload = .ok raw) ∨
        ∃ now parentPath folderName requestedBy outcome,
          a = .createFolder now parentPath folderName requestedBy outcome ∧
            e = .returned now (formatTime now) payload) := by
  cases a with
  | enqueue payload outcome =>
    cases h
    obtain ⟨raw, rfl, hraw⟩ := mem_pushEvents he
    exact ⟨payload, rfl, Or.inl ⟨raw, _, rfl, hraw⟩⟩
  | createFolder now parentPath folderName requestedBy outcome =>
    cases h
    refine ⟨_, rfl, (mem_createEvents he).imp_right ?_⟩
    rintro ⟨id, hreply, rfl⟩
    obtain rfl := enqueueCreateFolder_ok hreply
    exact ⟨now, parentPath, folderName, requestedBy, outcome, rfl, rfl⟩
  | pop i outcome =>
    simp only [step] at h
    split at h
    · cases h
      cases List.mem_singleton.mp he
      cases hof
    · split at h
      · cases h
        cases List.mem_singleton.mp he
        cases hof
      · cases h
        cases he
    · cases h
  | process i =>
    simp only [step] at h
    split at h
    · cases h
      cases List.mem_singleton.mp he
      cases hof
    · cases h
  | complete i outcome =>
    simp only [step] at h
    split at h
    · cases h
      cases List.mem_singleton.mp he
      cases hof
    · cases h
  | stop i =>
    cases h
    obtain ⟨k, task, rfl⟩ := mem_stopEvents he
    cases hof
  | touch store =>
    cases h
    cases he

/-- Only an enqueuer's call appends anything, and what it appends is its payload. -/
theorem step_pushed [DecidableEq ι] {sys : System σ} {w w' : World ι σ} {a : Action ι σ}
    {events : List (Event ι)} (h : step sys w a = some (w', events)) {payload : TaskPayload}
    {raw : Str} {accepted : Bool} (he : .pushed payload raw accepted ∈ events) :
    a.payload sys = some payload ∧ sys.marshal payload = .ok raw := by
  obtain ⟨payload', hpayload, ⟨raw', accepted', heq, hraw⟩ | ⟨_, _, _, _, _, _, heq⟩⟩ :=
    step_enqueuer h he trivial
  · cases heq
    exact ⟨hpayload, hraw⟩
  · cases heq

/-! ## Runs without a failure of Redis -/

section

variable [DecidableEq ι] (sys : System σ)

theorem step_createFolder {now : Nat} {parentPath folderName requestedBy raw : Str}
    (h : sys.marshal (createFolderPayload sys.codec now parentPath folderName requestedBy) =
      .ok raw) (w : World ι σ) :
    let payload := createFolderPayload sys.codec now parentPath folderName requestedBy
    step sys w (.createFolder now parentPath folderName requestedBy .ok) =
      some ({ w with redis := rpush raw w.redis },
        [.pushed payload raw true, .returned now (formatTime now) payload]) := by
  intro payload
  have henqueue : enqueue sys.codec .ok payload w.redis = (.ok (), rpush raw w.redis) := by
    rw [enqueue, show sys.codec.marshal payload = .ok raw from h]
    rfl
  have hcreate : enqueueCreateFolder sys.codec now .ok parentPath folderName requestedBy w.redis =
      (.ok (formatTime now), rpush raw w.redis) := by
    unfold enqueueCreateFolder
    dsimp only
    rw [henqueue]
    rfl
  have hpushed : pushEvents sys.codec .ok payload true = [.pushed (ι := ι) payload raw true] := by
    rw [pushEvents, appended, show sys.codec.marshal payload = .ok raw from h]
    rfl
  simp only [step, hcreate, createEvents]
  exact congrArg (fun events => some (_, events ++ _)) hpushed

/-- One round of a worker. -/
def round (i : ι) : List (Action ι σ) := [.pop i .ok, .process i, .complete i .ok]

/-- A round takes the head of the list, processes it and writes its status. -/
theorem exec_round {i : ι} {w : World ι σ} {raw : Str} {rest : List Str}
    (htasks : w.redis.tasks = raw :: rest) (hready : w.worker i = .ready) :
    let task := sys.unmarshal raw
    let result := process sys.storage task w.store
    exec sys (round i) w = some
      ({ w with
          redis := set (taskKey task.id) (statusOf result.1) { w.redis with tasks := rest }
          store := result.2
          ticket := w.ticket + 1 },
      [.popped i w.ticket task, .processed i w.ticket task result.1,
        .completed i w.ticket task.id (statusOf result.1) true]) := by
  intro task result
  let redis : Redis := { w.redis with tasks := rest }
  let w₁ := World.setWorker { w with redis, ticket := w.ticket + 1 } i (.holding w.ticket task)
  let w₂ := World.setWorker { w₁ with store := result.2 } i (.finished w.ticket task result.1)
  let w₃ := World.setWorker
    { w₂ with redis := set (taskKey task.id) (statusOf result.1) redis } i .ready
  have hpop : step sys w (.pop i .ok) = some (w₁, [.popped i w.ticket task]) := by
    simp [step, pop, blpop, htasks, hready, Except.map, w₁, redis, task]
  have hprocess : step sys w₁ (.process i) =
      some (w₂, [.processed i w.ticket task result.1]) := by
    simp [step, w₁, w₂, World.setWorker, result]
  have hcomplete : step sys w₂ (.complete i .ok) =
      some (w₃, [.completed i w.ticket task.id (statusOf result.1) true]) := by
    simp [step, w₂, w₃, World.setWorker, complete, Outcome.run, Outcome.applied, w₁]
  have hworker : w₃.worker = w.worker := by
    simp only [w₁, w₂, w₃, World.setWorker, Function.update_idem]
    rw [← hready, Function.update_eq_self]
  have hlast : w₃ = { w₃ with worker := w.worker } := by rw [← hworker]
  refine Step.exec_cons.mpr ⟨_, _, _, hpop, Step.exec_cons.mpr
    ⟨_, _, _, hprocess, ?_, rfl⟩, rfl⟩
  rw [hlast] at hcomplete
  exact Step.exec_one hcomplete

end

/-! ## Tasks as JSON -/

/-- The system with the JSON of the program. -/
def jsonSystem (foldRune : Nat → Nat) (storage : Storage σ) : System σ where
  marshal := jsonCodec.marshal
  unmarshal raw := (unmarshalPayload foldRune raw).1
  storage := storage

/-- A task of `EnqueueCreateFolder` comes back if its arguments are valid UTF-8. -/
theorem roundTrips_json (foldRune : Nat → Nat) (storage : Storage σ) (now : Nat)
    {parentPath folderName requestedBy : Str} (hparent : ValidUtf8 parentPath)
    (hname : ValidUtf8 folderName) (hby : ValidUtf8 requestedBy) :
    RoundTrips (jsonSystem foldRune storage)
      (createFolderPayload jsonCodec now parentPath folderName requestedBy) := by
  intro raw hraw
  cases hraw
  have hread := unmarshal_createFolder foldRune jsonCodec.marshal now parentPath folderName
    requestedBy
  rw [hparent, hname, hby] at hread
  exact congrArg Prod.fst hread

/-! ## A small system -/

/-- A storage where everything succeeds. -/
def quietStorage : Storage Unit where
  createFolder _ s := (.ok (), s)
  atomicWrite _ _ s := (.ok (), s)
  move _ _ s := (.ok (), s)
  delete _ s := (.ok (), s)
  exists_ _ s := (.ok false, s)
  list _ s := (.ok [], s)
  open_ _ s := (.ok (newReader []), s)

def smallSystem : System Unit := jsonSystem id quietStorage

/-- A call of `EnqueueCreateFolder` in this system. -/
def smallCall (now : Nat) (name : Str) : Action Unit Unit :=
  .createFolder now (str "/a") name (str "u") .ok

def smallTask (now : Nat) (name : Str) : TaskPayload :=
  createFolderPayload jsonCodec now (str "/a") name (str "u")

theorem roundTrips_smallTask (now : Nat) {name : Str} (h : ValidUtf8 name) :
    RoundTrips smallSystem (smallTask now name) :=
  roundTrips_json id quietStorage now (by decide) h (by decide)

theorem step_smallCall (now : Nat) (name : Str) (w : World Unit Unit) :
    ∃ raw, step smallSystem w (smallCall now name) = some ({ w with redis := rpush raw w.redis },
        [.pushed (smallTask now name) raw true,
          .returned now (formatTime now) (smallTask now name)]) ∧
      (ValidUtf8 name → smallSystem.unmarshal raw = smallTask now name) :=
  ⟨_, step_createFolder smallSystem rfl w, fun h => roundTrips_smallTask now h _ rfl⟩

/-- Two calls, and a round for each of them. -/
def smallActions (m n : Nat) (x y : Str) : List (Action Unit Unit) :=
  [smallCall m x, smallCall n y] ++ round () ++ round ()

/-- The events of a round that processes such a task. -/
def smallRound (k now : Nat) (name : Str) : List (Event Unit) :=
  let result := (process quietStorage (smallTask now name) ()).1
  [.popped () k (smallTask now name), .processed () k (smallTask now name) result,
    .completed () k (formatTime now) (statusOf result) true]

theorem exec_smallActions {m n : Nat} {x y : Str} (hx : ValidUtf8 x) (hy : ValidUtf8 y) :
    ∃ w raw raw', exec smallSystem (smallActions m n x y) (World.init ()) = some (w,
        [.pushed (smallTask m x) raw true, .returned m (formatTime m) (smallTask m x),
          .pushed (smallTask n y) raw' true, .returned n (formatTime n) (smallTask n y)] ++
        smallRound 0 m x ++ smallRound 1 n y) ∧
      w.redis.keys (taskKey (formatTime n)) =
        some (statusOf (process quietStorage (smallTask n y) ()).1) := by
  obtain ⟨raw, hfirst, htrip⟩ := step_smallCall m x (World.init ())
  obtain ⟨raw', hsecond, htrip'⟩ :=
    step_smallCall n y { World.init () with redis := rpush raw (World.init (ι := Unit) ()).redis }
  have hcalls := Step.exec_cons.mpr ⟨_, _, _, hfirst, Step.exec_one hsecond, rfl⟩
  have hround := exec_round smallSystem (i := ())
    (w := { World.init () with redis := ⟨[raw, raw'], fun _ => none⟩ }) rfl rfl
  rw [htrip hx] at hround
  have hround' := exec_round smallSystem (i := ())
    (w := ⟨set (taskKey (formatTime m)) (statusOf (process quietStorage (smallTask m x) ()).1)
      ⟨[raw'], fun _ => none⟩, (), fun _ => .ready, 1⟩) (show _ = [raw'] from rfl) rfl
  rw [htrip' hy] at hround'
  refine ⟨_, raw, raw', Step.exec_append.mpr ⟨_, _, _, Step.exec_append.mpr
    ⟨_, _, _, hcalls, hround, rfl⟩, hround', rfl⟩, Function.update_self _ _ _⟩

/-- The payloads of these actions. -/
theorem roundTrips_smallActions {m n : Nat} {x y : Str} (hx : ValidUtf8 x) (hy : ValidUtf8 y)
    {a : Action Unit Unit} (ha : a ∈ smallActions m n x y) {payload : TaskPayload}
    (hpayload : a.payload smallSystem = some payload) : RoundTrips smallSystem payload := by
  simp only [smallActions, round, List.cons_append, List.nil_append, List.mem_cons,
    List.not_mem_nil, or_false] at ha
  rcases ha with rfl | rfl | rfl | rfl | rfl | rfl | rfl | rfl <;> cases hpayload
  · exact roundTrips_smallTask m hx
  · exact roundTrips_smallTask n hy

end FileEngine.Tasks
