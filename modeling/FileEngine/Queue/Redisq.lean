import FileEngine.Go.Strings
import Mathlib.Logic.Function.Basic

/-!
# The task queue

`internal/adapters/queue/redisq/redisq.go`. The state of Redis is the list `tasks` and
the keys that hold a status. A call may fail, before or after Redis has applied it
(`Outcome`). Encoding a payload, decoding it and formatting the time are parameters.
-/

namespace FileEngine.Queue

open Go

structure TaskPayload where
  id : Str
  type : Str
  params : Str → Option Str

structure Redis where
  tasks : List Str
  keys : Str → Option Str

/-- How a call to Redis comes out. -/
inductive Outcome
  | ok
  | failed (message : Str) (applied : Bool)

/-- The effect of a call, and the error that it returns. -/
def Outcome.run (effect : Redis → Redis) : Outcome → Redis → Except Str Unit × Redis
  | .ok, r => (.ok (), effect r)
  | .failed message applied, r => (.error message, if applied then effect r else r)

def rpush (value : Str) (r : Redis) : Redis := { r with tasks := r.tasks ++ [value] }

structure Codec where
  marshal : TaskPayload → Except Str Str
  /-- The time in the layout `20060102T150405.000000000Z07:00`. -/
  format : (now : Nat) → Str

def enqueue (codec : Codec) (outcome : Outcome) (payload : TaskPayload) (r : Redis) :
    Except Str Unit × Redis :=
  match codec.marshal payload with
  | .error e => (.error e, r)
  | .ok b => outcome.run (rpush b) r

def createFolderParams (parentPath folderName requestedBy key : Str) : Option Str :=
  [(str "parent", parentPath), (str "name", folderName), (str "by", requestedBy)].lookup key

/-- The payload of an `EnqueueCreateFolder`. -/
def createFolderPayload (codec : Codec) (now : Nat) (parentPath folderName requestedBy : Str) :
    TaskPayload :=
  ⟨codec.format now, str "create_folder", createFolderParams parentPath folderName requestedBy⟩

def enqueueCreateFolder (codec : Codec) (now : Nat) (outcome : Outcome)
    (parentPath folderName requestedBy : Str) (r : Redis) : Except Str Str × Redis :=
  let p := createFolderPayload codec now parentPath folderName requestedBy
  match enqueue codec outcome p r with
  | (.error e, r) => (.error e, r)
  | (.ok _, r) => (.ok p.id, r)

/-- `BLPOP` without a time limit: it waits as long as the list is empty. -/
def blpop (outcome : Outcome) (r : Redis) : Option (Except Str Str × Redis) :=
  match outcome, r.tasks with
  | .ok, [] => none
  | .ok, value :: rest => some (.ok value, { r with tasks := rest })
  | .failed message applied, tasks =>
      some (.error message, if applied then { r with tasks := tasks.tail } else r)

/-- `unmarshal` is what `json.Unmarshal` leaves in an empty payload; its error is ignored. -/
def pop (unmarshal : Str → TaskPayload) (outcome : Outcome) (r : Redis) :
    Option (Except Str TaskPayload × Redis) :=
  (blpop outcome r).map fun (res, r) => (res.map unmarshal, r)

def taskKey (id : Str) : Str := str "task:" ++ id

def set (key value : Str) (r : Redis) : Redis :=
  { r with keys := Function.update r.keys key (some value) }

def complete (outcome : Outcome) (id status : Str) (r : Redis) : Except Str Unit × Redis :=
  outcome.run (set (taskKey id) status) r

/-! ## What the calls do to Redis -/

/-- The call has taken effect, whatever it returned. -/
def Outcome.applied : Outcome → Bool
  | .ok => true
  | .failed _ applied => applied

theorem Outcome.run_state (outcome : Outcome) (effect : Redis → Redis) (r : Redis) :
    (outcome.run effect r).2 = if outcome.applied then effect r else r := by
  cases outcome with
  | ok => rfl
  | failed message applied => rfl

/-- What an `Enqueue` appends to the list. -/
def appended (codec : Codec) (outcome : Outcome) (payload : TaskPayload) : Option Str :=
  match codec.marshal payload with
  | .error _ => none
  | .ok b => if outcome.applied then some b else none

theorem enqueue_state (codec : Codec) (outcome : Outcome) (payload : TaskPayload) (r : Redis) :
    (enqueue codec outcome payload r).2 =
      { r with tasks := r.tasks ++ (appended codec outcome payload).toList } := by
  unfold enqueue appended
  cases codec.marshal payload with
  | error e => simp
  | ok b =>
    dsimp only
    rw [outcome.run_state]
    cases outcome.applied <;> simp [rpush]

theorem enqueueCreateFolder_state (codec : Codec) (now : Nat) (outcome : Outcome)
    (parentPath folderName requestedBy : Str) (r : Redis) :
    (enqueueCreateFolder codec now outcome parentPath folderName requestedBy r).2 =
      (enqueue codec outcome
        (createFolderPayload codec now parentPath folderName requestedBy) r).2 := by
  unfold enqueueCreateFolder
  dsimp only
  split <;> simp_all

/-- A call that succeeds returns the formatted time. -/
theorem enqueueCreateFolder_ok {codec : Codec} {now : Nat} {outcome : Outcome}
    {parentPath folderName requestedBy id : Str} {r : Redis}
    (h : (enqueueCreateFolder codec now outcome parentPath folderName requestedBy r).1 = .ok id) :
    id = codec.format now := by
  unfold enqueueCreateFolder at h
  dsimp only at h
  split at h
  · cases h
  · exact (Except.ok.inj h).symm

/-- A call that succeeds has appended the encoded payload. -/
theorem enqueueCreateFolder_queued {codec : Codec} {now : Nat} {outcome : Outcome}
    {parentPath folderName requestedBy id : Str} {r : Redis}
    (h : (enqueueCreateFolder codec now outcome parentPath folderName requestedBy r).1 = .ok id) :
    ∃ raw, codec.marshal (createFolderPayload codec now parentPath folderName requestedBy) =
        .ok raw ∧
      (enqueueCreateFolder codec now outcome parentPath folderName requestedBy r).2.tasks =
        r.tasks ++ [raw] := by
  rw [enqueueCreateFolder_state]
  unfold enqueueCreateFolder enqueue at h
  unfold enqueue
  dsimp only at h ⊢
  cases hmarshal : codec.marshal
      (createFolderPayload codec now parentPath folderName requestedBy) with
  | error e => simp [hmarshal] at h
  | ok raw =>
    cases outcome with
    | ok => exact ⟨raw, rfl, rfl⟩
    | failed message applied => simp [hmarshal, Outcome.run] at h

/-- `Pop` waits, takes the head and returns it, takes it and fails, or just fails. -/
theorem pop_cases {unmarshal : Str → TaskPayload} {outcome : Outcome} {r r' : Redis}
    {res : Except Str TaskPayload} (h : pop unmarshal outcome r = some (res, r')) :
    (∃ b rest, r.tasks = b :: rest ∧ res = .ok (unmarshal b) ∧ r' = { r with tasks := rest }) ∨
      (∃ e b rest, r.tasks = b :: rest ∧ res = .error e ∧ r' = { r with tasks := rest }) ∨
      ∃ e, res = .error e ∧ r' = r := by
  unfold pop blpop at h
  split at h
  · cases h
  · rename_i b rest htasks
    cases h
    exact Or.inl ⟨b, rest, htasks, rfl, rfl⟩
  · rename_i message applied
    cases h
    cases applied with
    | false => exact Or.inr (Or.inr ⟨message, rfl, rfl⟩)
    | true =>
      cases htasks : r.tasks with
      | nil =>
        obtain ⟨tasks, keys⟩ := r
        cases htasks
        exact Or.inr (Or.inr ⟨message, rfl, rfl⟩)
      | cons b rest => exact Or.inr (Or.inl ⟨message, b, rest, rfl, rfl, rfl⟩)

end FileEngine.Queue
