import FileEngine.Tasks.System
import Mathlib.Data.List.Sort
import Mathlib.Data.List.Perm.Subperm

/-!
# Delivery

What the enqueuers and workers make of a task, in every run: whatever fails and whoever
is stopped, a task that was enqueued once is processed at most once, tasks are taken in the
order in which they were enqueued, and the status that is written is that of the task.
Nothing brings a task back, however, so it can be lost on its way.

`Ordered` and `Tracked` are the invariants: the first is about the list, the second about
the workers. Each has a lemma for one `Change`, and `exec_invariant` does the rest.
-/

namespace FileEngine.Tasks

open Go Queue

variable {ι σ : Type}

/-! ## Reading a log -/

/-- The tasks that were enqueued, whatever the call returned. -/
def enqueued (log : List (Event ι)) : List TaskPayload :=
  log.filterMap fun | .pushed payload _ _ => some payload | _ => none

/-- The tasks that `Pop` returned, with their tickets. -/
def pops (log : List (Event ι)) : List (Nat × TaskPayload) :=
  log.filterMap fun | .popped _ k task => some (k, task) | _ => none

/-- The tasks that were handed to `Process`, with their tickets. -/
def handed (log : List (Event ι)) : List (Nat × TaskPayload) :=
  log.filterMap fun | .processed _ k task _ => some (k, task) | _ => none

theorem pops_append (log events : List (Event ι)) :
    pops (log ++ events) = pops log ++ pops events :=
  List.filterMap_append

theorem handed_append (log events : List (Event ι)) :
    handed (log ++ events) = handed log ++ handed events := List.filterMap_append

theorem mem_pops {log : List (Event ι)} {k : Nat} {task : TaskPayload} :
    (k, task) ∈ pops log ↔ ∃ i, .popped i k task ∈ log := by
  unfold pops
  rw [List.mem_filterMap]
  constructor
  · rintro ⟨e, he, heq⟩
    cases e <;> cases heq
    exact ⟨_, he⟩
  · rintro ⟨i, hi⟩
    exact ⟨_, hi, rfl⟩

theorem mem_handed {log : List (Event ι)} {k : Nat} {task : TaskPayload} :
    (k, task) ∈ handed log ↔ ∃ i result, .processed i k task result ∈ log := by
  unfold handed
  rw [List.mem_filterMap]
  constructor
  · rintro ⟨e, he, heq⟩
    cases e <;> cases heq
    exact ⟨_, _, he⟩
  · rintro ⟨i, result, hi⟩
    exact ⟨_, hi, rfl⟩

section

variable {sys : System σ} {events : List (Event ι)}

theorem pops_of_push (h : ∀ e ∈ events, e.IsPush sys) : pops events = [] := by
  refine List.filterMap_eq_nil_iff.mpr fun e he => ?_
  have := h e he
  cases e <;> first | rfl | cases this

theorem raws_stopEvents (i : ι) (state : Worker) : raws (state.stopEvents i) = [] := by
  cases state <;> rfl

theorem pops_stopEvents (i : ι) (state : Worker) : pops (state.stopEvents i) = [] := by
  cases state <;> rfl

end

/-! ## The list -/

/-- The list is what is left of all that was appended, and what `Pop` has returned came from
there, in this order. -/
structure Ordered (sys : System σ) (w : World ι σ) (log : List (Event ι)) : Prop where
  queue : w.redis.tasks = (raws log).drop w.ticket
  ticket_le : w.ticket ≤ (raws log).length
  sorted : ((pops log).map Prod.fst).Pairwise (· < ·)
  taken : ∀ p ∈ pops log, p.1 < w.ticket
  task : ∀ p ∈ pops log, ∃ raw, (raws log)[p.1]? = some raw ∧ p.2 = sys.unmarshal raw

section

variable {sys : System σ} {w w' : World ι σ} {log events : List (Event ι)}

/-- Steps that have nothing to do with the list. -/
theorem Ordered.of_same (h : Ordered sys w log) (htasks : w'.redis.tasks = w.redis.tasks)
    (hticket : w'.ticket = w.ticket) (hraws : raws events = []) (hpops : pops events = []) :
    Ordered sys w' (log ++ events) := by
  obtain ⟨queue, ticket_le, sorted, taken, task⟩ := h
  constructor <;> simp only [raws_append, pops_append, hraws, hpops, hticket, List.append_nil]
  · exact htasks.trans queue
  · exact ticket_le
  · exact sorted
  · exact taken
  · exact task

/-- The head of the list has been appended as the one with the next ticket. -/
theorem Ordered.head (h : Ordered sys w log) {raw : Str} {rest : List Str}
    (htasks : w.redis.tasks = raw :: rest) :
    (raws log)[w.ticket]? = some raw ∧ rest = (raws log).drop (w.ticket + 1) ∧
      w.ticket + 1 ≤ (raws log).length := by
  have hdrop : (raws log).drop w.ticket = raw :: rest := h.queue.symm.trans htasks
  have hget : (raws log)[w.ticket]? = some raw := by
    rw [← List.head?_drop, hdrop]
    rfl
  refine ⟨hget, ?_, ?_⟩
  · rw [← List.tail_drop, hdrop]
    rfl
  · exact (List.getElem?_eq_some_iff.mp hget).1

theorem Ordered.next [DecidableEq ι] (h : Ordered sys w log) (hchange : Change sys w w' events) :
    Ordered sys w' (log ++ events) := by
  cases hchange with
  | push events hpush =>
    obtain ⟨queue, ticket_le, sorted, taken, task⟩ := h
    constructor <;> simp only [raws_append, pops_append, pops_of_push hpush, List.append_nil]
    · rw [List.drop_append_of_le_length ticket_le, queue]
    · rw [List.length_append]
      omega
    · exact sorted
    · exact taken
    · intro p hp
      obtain ⟨raw, hraw, heq⟩ := task p hp
      refine ⟨raw, ?_, heq⟩
      rw [List.getElem?_append_left (List.getElem?_eq_some_iff.mp hraw).1, hraw]
  | pop i raw rest hi htasks =>
    obtain ⟨hget, hrest, hle⟩ := h.head htasks
    have hraws : raws [Event.popped i w.ticket (sys.unmarshal raw)] = [] := rfl
    have hpops : pops [Event.popped i w.ticket (sys.unmarshal raw)] =
      [(w.ticket, sys.unmarshal raw)] := rfl
    constructor <;> simp only [raws_append, pops_append, hraws, hpops, List.append_nil]
    · exact hrest
    · exact hle
    · rw [List.map_append, List.pairwise_append]
      refine ⟨h.sorted, List.pairwise_singleton _ _, fun a ha b hb => ?_⟩
      obtain ⟨p, hp, rfl⟩ := List.mem_map.mp ha
      obtain rfl : b = w.ticket := by simpa using hb
      exact h.taken p hp
    · intro p hp
      rcases List.mem_append.mp hp with hp | hp
      · exact Nat.lt_succ_of_lt (h.taken p hp)
      · rw [List.mem_singleton.mp hp]
        exact Nat.lt_succ_self _
    · intro p hp
      rcases List.mem_append.mp hp with hp | hp
      · exact h.task p hp
      · rw [List.mem_singleton.mp hp]
        exact ⟨raw, hget, rfl⟩
  | drop raw rest htasks =>
    obtain ⟨_, hrest, hle⟩ := h.head htasks
    have hraws : raws [(Event.dropped w.ticket : Event ι)] = [] := rfl
    have hpops : pops [(Event.dropped w.ticket : Event ι)] = [] := rfl
    constructor <;> simp only [raws_append, pops_append, hraws, hpops, List.append_nil]
    · exact hrest
    · exact hle
    · exact h.sorted
    · exact fun p hp => Nat.lt_succ_of_lt (h.taken p hp)
    · exact h.task
  | process i k task result store hi => exact h.of_same rfl rfl rfl rfl
  | complete i k task result stored hi =>
    refine h.of_same ?_ rfl rfl rfl
    cases stored <;> rfl
  | stop i => exact h.of_same rfl rfl (raws_stopEvents i _) (pops_stopEvents i _)
  | touch store => exact h.of_same rfl rfl rfl rfl

end

/-! ## The workers -/

/-- Every worker has a task that it has popped, no two have the same, and the events of one
round are about one task. -/
structure Tracked (w : World ι σ) (log : List (Event ι)) : Prop where
  holding : ∀ i k task, w.worker i = .holding k task →
    .popped i k task ∈ log ∧ k ∉ (handed log).map Prod.fst
  alone : ∀ i j k task task', w.worker i = .holding k task → w.worker j = .holding k task' → i = j
  finished : ∀ i k task result, w.worker i = .finished k task result →
    .processed i k task result ∈ log
  once : ((handed log).map Prod.fst).Nodup
  popped : ∀ i k task result, .processed i k task result ∈ log → .popped i k task ∈ log
  status : ∀ i k id status stored, .completed i k id status stored ∈ log →
    ∃ task result, .processed i k task result ∈ log ∧ id = task.id ∧ status = statusOf result

/-- The events do not concern the rounds of the workers. -/
def Aside (events : List (Event ι)) : Prop :=
  ∀ e ∈ events, (∀ i k task result, e ≠ .processed i k task result) ∧
    ∀ i k id status stored, e ≠ .completed i k id status stored

section

variable {sys : System σ} {w w' : World ι σ} {log events : List (Event ι)}

theorem handed_of_aside (h : Aside events) : handed events = [] := by
  refine List.filterMap_eq_nil_iff.mpr fun e he => ?_
  cases e with
  | processed i k task result => exact absurd rfl ((h _ he).1 i k task result)
  | _ => rfl

/-- Steps that leave the rounds of the workers alone: what a worker has now it had before, or
it is a task that was just popped. -/
theorem Tracked.of_aside (h : Tracked w log) (haside : Aside events)
    (hholding : ∀ i k task, w'.worker i = .holding k task → w.worker i = .holding k task ∨
      (.popped i k task ∈ events ∧ k ∉ (handed log).map Prod.fst ∧
        ∀ j task', w'.worker j = .holding k task' → j = i))
    (hfinished : ∀ i k task result, w'.worker i = .finished k task result →
      w.worker i = .finished k task result) : Tracked w' (log ++ events) := by
  have hprocessed : ∀ i k task result, .processed i k task result ∈ log ++ events →
      .processed i k task result ∈ log := fun i k task result he =>
    (List.mem_append.mp he).resolve_right fun he => (haside _ he).1 i k task result rfl
  constructor
  · intro i k task hi
    rw [handed_append, handed_of_aside haside, List.append_nil]
    rcases hholding i k task hi with hold | ⟨hpopped, hnew, _⟩
    · exact ⟨List.mem_append_left _ (h.holding i k task hold).1, (h.holding i k task hold).2⟩
    · exact ⟨List.mem_append_right _ hpopped, hnew⟩
  · intro i j k task task' hi hj
    rcases hholding i k task hi with hold | ⟨_, _, honly⟩
    · rcases hholding j k task' hj with hold' | ⟨_, _, honly⟩
      · exact h.alone i j k task task' hold hold'
      · exact honly i task hi
    · exact (honly j task' hj).symm
  · exact fun i k task result hi =>
      List.mem_append_left _ (h.finished i k task result (hfinished i k task result hi))
  · rw [handed_append, handed_of_aside haside, List.append_nil]
    exact h.once
  · exact fun i k task result he =>
      List.mem_append_left _ (h.popped i k task result (hprocessed i k task result he))
  · intro i k id status stored he
    rcases List.mem_append.mp he with he | he
    · obtain ⟨task, result, hp, hid, hstatus⟩ := h.status i k id status stored he
      exact ⟨task, result, List.mem_append_left _ hp, hid, hstatus⟩
    · exact absurd rfl ((haside _ he).2 i k id status stored)

theorem aside_of_push (h : ∀ e ∈ events, e.IsPush sys) : Aside events := by
  refine fun e he => ⟨?_, ?_⟩
  · rintro i k task result rfl
    exact h _ he
  · rintro i k id status stored rfl
    exact h _ he

theorem aside_stopEvents (i : ι) (state : Worker) : Aside (state.stopEvents i) := by
  intro e he
  obtain ⟨k, task, rfl⟩ := mem_stopEvents he
  exact ⟨nofun, nofun⟩

/-- A ticket that was processed has been popped. -/
theorem Tracked.handed_lt (h : Tracked w log) (hlist : Ordered sys w log) {k : Nat}
    (hk : k ∈ (handed log).map Prod.fst) : k < w.ticket := by
  obtain ⟨⟨k, task⟩, hmem, rfl⟩ := List.mem_map.mp hk
  obtain ⟨i, result, hp⟩ := mem_handed.mp hmem
  exact hlist.taken (k, task) (mem_pops.mpr ⟨i, h.popped i k task result hp⟩)

variable [DecidableEq ι]

theorem worker_setWorker_self (w : World ι σ) (i : ι) (state : Worker) :
    (w.setWorker i state).worker i = state := Function.update_self _ _ _

theorem worker_setWorker_of_ne (w : World ι σ) {i j : ι} (h : j ≠ i) (state : Worker) :
    (w.setWorker i state).worker j = w.worker j := Function.update_of_ne h _ _

/-- A worker that is in another state now was in it before. -/
theorem worker_of_setWorker {i j : ι} {state state' : Worker}
    (h : (w.setWorker i state).worker j = state') (hne : state' ≠ state) :
    j ≠ i ∧ w.worker j = state' := by
  by_cases hji : j = i
  · subst hji
    rw [worker_setWorker_self] at h
    exact absurd h.symm hne
  · rw [worker_setWorker_of_ne _ hji] at h
    exact ⟨hji, h⟩

theorem Tracked.pop (h : Tracked w log) (hlist : Ordered sys w log) (i : ι) (redis : Redis)
    (task : TaskPayload) :
    Tracked (World.setWorker { w with redis, ticket := w.ticket + 1 } i (.holding w.ticket task))
      (log ++ [.popped i w.ticket task]) := by
  have hnew : w.ticket ∉ (handed log).map Prod.fst := fun hk =>
    Nat.lt_irrefl _ (h.handed_lt hlist hk)
  have hother : ∀ j task', w.worker j ≠ .holding w.ticket task' := fun j task' hj =>
    Nat.lt_irrefl _ (hlist.taken _ (mem_pops.mpr ⟨j, (h.holding j _ _ hj).1⟩))
  refine h.of_aside ?_ (fun j k task' hj => ?_) (fun j k task' result hj => ?_)
  · intro e he
    rw [List.mem_singleton.mp he]
    exact ⟨nofun, nofun⟩
  · by_cases hji : j = i
    · subst hji
      rw [worker_setWorker_self] at hj
      cases hj
      refine Or.inr ⟨List.mem_singleton_self _, hnew, fun j' task' hj' => ?_⟩
      by_contra hne
      rw [worker_setWorker_of_ne _ hne] at hj'
      exact hother j' task' hj'
    · rw [worker_setWorker_of_ne _ hji] at hj
      exact Or.inl hj
  · exact (worker_of_setWorker hj nofun).2

theorem Tracked.process (h : Tracked w log) {i : ι} {k : Nat} {task : TaskPayload}
    (hi : w.worker i = .holding k task) (result : Except Str Unit) (store : σ) :
    Tracked (World.setWorker { w with store } i (.finished k task result))
      (log ++ [.processed i k task result]) := by
  obtain ⟨hpopped, hnew⟩ := h.holding i k task hi
  have hhanded : handed [Event.processed i k task result] = [(k, task)] := rfl
  constructor
  · intro j k' task' hj
    obtain ⟨hji, hold⟩ := worker_of_setWorker hj nofun
    obtain ⟨hpopped', hnew'⟩ := h.holding j k' task' hold
    refine ⟨List.mem_append_left _ hpopped', ?_⟩
    rw [handed_append, hhanded, List.map_append, List.mem_append, not_or]
    refine ⟨hnew', fun hk => hji ?_⟩
    obtain rfl : k' = k := by simpa using hk
    exact h.alone j i k' task' task hold hi
  · exact fun j j' k' task' task'' hj hj' => h.alone j j' k' task' task''
      (worker_of_setWorker hj nofun).2 (worker_of_setWorker hj' nofun).2
  · intro j k' task' result' hj
    by_cases hji : j = i
    · subst hji
      rw [worker_setWorker_self] at hj
      cases hj
      exact List.mem_append_right _ (List.mem_singleton_self _)
    · rw [worker_setWorker_of_ne _ hji] at hj
      exact List.mem_append_left _ (h.finished j k' task' result' hj)
  · rw [handed_append, hhanded, List.map_append, List.nodup_append]
    refine ⟨h.once, List.nodup_singleton _, fun a ha b hb => ?_⟩
    obtain rfl : b = k := by simpa using hb
    rintro rfl
    exact hnew ha
  · intro j k' task' result' he
    rcases List.mem_append.mp he with he | he
    · exact List.mem_append_left _ (h.popped j k' task' result' he)
    · cases List.mem_singleton.mp he
      exact List.mem_append_left _ hpopped
  · intro j k' id status stored he
    rcases List.mem_append.mp he with he | he
    · obtain ⟨task', result', hp, hid, hstatus⟩ := h.status j k' id status stored he
      exact ⟨task', result', List.mem_append_left _ hp, hid, hstatus⟩
    · cases List.mem_singleton.mp he

theorem Tracked.complete (h : Tracked w log) {i : ι} {k : Nat} {task : TaskPayload}
    {result : Except Str Unit} (hi : w.worker i = .finished k task result) (redis : Redis)
    (stored : Bool) :
    Tracked (World.setWorker { w with redis } i .ready)
      (log ++ [.completed i k task.id (statusOf result) stored]) := by
  have hhanded : handed [(.completed i k task.id (statusOf result) stored : Event ι)] = [] := rfl
  have hprocessed := h.finished i k task result hi
  constructor
  · intro j k' task' hj
    rw [handed_append, hhanded, List.append_nil]
    obtain ⟨hpopped, hnew⟩ := h.holding j k' task' (worker_of_setWorker hj nofun).2
    exact ⟨List.mem_append_left _ hpopped, hnew⟩
  · exact fun j j' k' task' task'' hj hj' => h.alone j j' k' task' task''
      (worker_of_setWorker hj nofun).2 (worker_of_setWorker hj' nofun).2
  · exact fun j k' task' result' hj =>
      List.mem_append_left _ (h.finished j k' task' result' (worker_of_setWorker hj nofun).2)
  · rw [handed_append, hhanded, List.append_nil]
    exact h.once
  · intro j k' task' result' he
    rcases List.mem_append.mp he with he | he
    · exact List.mem_append_left _ (h.popped j k' task' result' he)
    · cases List.mem_singleton.mp he
  · intro j k' id status stored' he
    rcases List.mem_append.mp he with he | he
    · obtain ⟨task', result', hp, hid, hstatus⟩ := h.status j k' id status stored' he
      exact ⟨task', result', List.mem_append_left _ hp, hid, hstatus⟩
    · cases List.mem_singleton.mp he
      exact ⟨task, result, List.mem_append_left _ hprocessed, rfl, rfl⟩

theorem Tracked.next (h : Tracked w log) (hlist : Ordered sys w log)
    (hchange : Change sys w w' events) : Tracked w' (log ++ events) := by
  cases hchange with
  | push events hpush =>
    exact h.of_aside (aside_of_push hpush) (fun _ _ _ hi => Or.inl hi) fun _ _ _ _ hi => hi
  | pop i raw rest hi htasks => exact h.pop hlist i _ _
  | drop raw rest htasks =>
    refine h.of_aside (fun e he => ?_) (fun _ _ _ hi => Or.inl hi) fun _ _ _ _ hi => hi
    rw [List.mem_singleton.mp he]
    exact ⟨nofun, nofun⟩
  | process i k task result store hi => exact h.process hi result store
  | complete i k task result stored hi => exact h.complete hi _ stored
  | stop i =>
    exact h.of_aside (aside_stopEvents i _)
      (fun _ _ _ hj => Or.inl (worker_of_setWorker hj nofun).2)
      fun _ _ _ _ hj => (worker_of_setWorker hj nofun).2
  | touch store =>
    exact h.of_aside (fun _ he => absurd he List.not_mem_nil) (fun _ _ _ hi => Or.inl hi)
      fun _ _ _ _ hi => hi

end

/-! ## At most once, in order -/

section

variable [DecidableEq ι] {sys : System σ} {store : σ} {actions : List (Action ι σ)}
  {w : World ι σ} {log : List (Event ι)}

theorem ordered_tracked (hexec : exec sys actions (World.init store) = some (w, log)) :
    Ordered sys w log ∧ Tracked w log := by
  refine Step.exec_invariant (fun _ w log => Ordered sys w log ∧ Tracked w log)
    (fun _ _ _ _ _ _ h hstep => ?_) ⟨?_, ?_⟩ hexec
  · exact ⟨h.1.next (step_change hstep), h.2.next h.1 (step_change hstep)⟩
  · exact ⟨rfl, le_rfl, .nil, nofun, nofun⟩
  · exact ⟨nofun, nofun, nofun, .nil, nofun, nofun⟩

/-- What was appended to the list is the encoding of an enqueuer's payload. -/
theorem pushed_call (hexec : exec sys actions (World.init store) = some (w, log)) :
    ∀ payload raw accepted, .pushed payload raw accepted ∈ log →
      (∃ a ∈ actions, a.payload sys = some payload) ∧ sys.marshal payload = .ok raw := by
  refine Step.exec_invariant (fun done _ log => ∀ payload raw accepted,
      .pushed payload raw accepted ∈ log →
        (∃ a ∈ done, a.payload sys = some payload) ∧ sys.marshal payload = .ok raw)
    (fun done a _ _ _ _ h hstep payload raw accepted he => ?_) nofun hexec
  rcases List.mem_append.mp he with he | he
  · obtain ⟨⟨a', ha', hpayload⟩, hraw⟩ := h payload raw accepted he
    exact ⟨⟨a', List.mem_append_left _ ha', hpayload⟩, hraw⟩
  · obtain ⟨hpayload, hraw⟩ := step_pushed hstep he
    exact ⟨⟨a, List.mem_append_right _ (List.mem_singleton_self a), hpayload⟩, hraw⟩

theorem unmarshal_raws (hexec : exec sys actions (World.init store) = some (w, log))
    (hjson : ∀ a ∈ actions, ∀ payload, a.payload sys = some payload → RoundTrips sys payload) :
    (raws log).map sys.unmarshal = enqueued log := by
  have htrip : ∀ payload raw accepted, .pushed payload raw accepted ∈ log →
      sys.unmarshal raw = payload := by
    intro payload raw accepted he
    obtain ⟨⟨a, ha, hpayload⟩, hraw⟩ := pushed_call hexec payload raw accepted he
    exact hjson a ha payload hpayload raw hraw
  clear hexec
  induction log with
  | nil => rfl
  | cons e log ih =>
    have hrest := ih fun payload raw accepted he =>
      htrip payload raw accepted (List.mem_cons_of_mem _ he)
    cases e with
    | pushed payload raw accepted =>
      have hfirst := htrip payload raw accepted List.mem_cons_self
      show sys.unmarshal raw :: (raws log).map sys.unmarshal = payload :: enqueued log
      rw [hfirst, hrest]
    | _ => exact hrest

end

/-- Elements that are picked at increasing positions form a sublist. -/
theorem sublist_of_positions {α : Type} {l : List α} {ps : List (Nat × α)} (n : Nat)
    (hsorted : (ps.map Prod.fst).Pairwise (· < ·)) (hfrom : ∀ p ∈ ps, n ≤ p.1)
    (hget : ∀ p ∈ ps, l[p.1]? = some p.2) : (ps.map Prod.snd).Sublist (l.drop n) := by
  induction ps generalizing n with
  | nil => exact List.nil_sublist _
  | cons p ps ih =>
    obtain ⟨hfirst, hrest⟩ := List.pairwise_cons.mp hsorted
    have hdrop : l.drop p.1 = p.2 :: l.drop (p.1 + 1) := by
      obtain ⟨hlt, heq⟩ := List.getElem?_eq_some_iff.mp (hget p List.mem_cons_self)
      rw [List.drop_eq_getElem_cons hlt, heq]
    have htail : (ps.map Prod.snd).Sublist (l.drop (p.1 + 1)) :=
      ih (p.1 + 1) hrest (fun q hq => hfirst _ (List.mem_map_of_mem hq))
        fun q hq => hget q (List.mem_cons_of_mem _ hq)
    refine List.Sublist.trans ?_ (List.drop_sublist_drop_left l (hfrom p List.mem_cons_self))
    rw [hdrop]
    exact htail.cons_cons p.2

/-- **Tasks are processed at most once and taken in order.** In every run, with any failures
and stops, if JSON gives the enqueued payloads back: the tasks that are handed to `Process`
are enqueued ones, each occurrence at most once; the tasks that are popped are enqueued ones
in their order; and the status that is written in a round is "success" just if `Process`
returned `nil` for the task that was popped in this round. -/
theorem tasks_atMostOnce [DecidableEq ι] (sys : System σ) (store : σ)
    (actions : List (Action ι σ)) (w : World ι σ) (log : List (Event ι))
    (hexec : exec sys actions (World.init store) = some (w, log))
    (hjson : ∀ a ∈ actions, ∀ payload, a.payload sys = some payload → RoundTrips sys payload) :
    ((handed log).map Prod.snd).Subperm (enqueued log) ∧
      ((pops log).map Prod.snd).Sublist (enqueued log) ∧
      ((handed log).map Prod.fst).Nodup ∧
      ∀ i k id status stored, .completed i k id status stored ∈ log →
        ∃ task result, .popped i k task ∈ log ∧ .processed i k task result ∈ log ∧
          id = task.id ∧ (status = str "success" ↔ result = .ok ()) := by
  obtain ⟨hlist, hworkers⟩ := ordered_tracked hexec
  have hsub : ((pops log).map Prod.snd).Sublist (enqueued log) := by
    rw [← unmarshal_raws hexec hjson]
    refine sublist_of_positions 0 hlist.sorted (fun _ _ => Nat.zero_le _) fun p hp => ?_
    obtain ⟨raw, hraw, heq⟩ := hlist.task p hp
    rw [List.getElem?_map, hraw, heq]
    rfl
  have hpopped : (handed log).Subperm (pops log) := by
    refine List.subperm_of_subset (List.Nodup.of_map _ hworkers.once) fun p hp => ?_
    obtain ⟨i, result, hprocessed⟩ := mem_handed.mp hp
    exact mem_pops.mpr ⟨i, hworkers.popped i _ _ result hprocessed⟩
  obtain ⟨l, hperm, hl⟩ := hpopped
  refine ⟨List.Subperm.trans ⟨l.map Prod.snd, hperm.map _, hl.map _⟩ hsub.subperm, hsub,
    hworkers.once, ?_⟩
  intro i k id status stored he
  obtain ⟨task, result, hprocessed, hid, hstatus⟩ := hworkers.status i k id status stored he
  refine ⟨task, result, hworkers.popped i k task result hprocessed, hprocessed, hid, ?_⟩
  rw [hstatus]
  cases result with
  | ok _ => exact iff_of_true rfl rfl
  | error e =>
    have hne : str "failed" ≠ str "success" := by decide
    exact iff_of_false hne nofun

/-- Two tasks and two rounds. -/
theorem tasks_atMostOnce_small :
    ∃ w log, exec smallSystem (smallActions 0 1 (str "b") (str "c")) (World.init ()) =
        some (w, log) ∧
      ((handed log).map Prod.snd).Subperm (enqueued log) ∧
      ((pops log).map Prod.snd).Sublist (enqueued log) ∧
      ((handed log).map Prod.fst).Nodup ∧
      ∀ i k id status stored, .completed i k id status stored ∈ log →
        ∃ task result, .popped i k task ∈ log ∧ .processed i k task result ∈ log ∧
          id = task.id ∧ (status = str "success" ↔ result = .ok ()) := by
  obtain ⟨w, raw, raw', hexec, _⟩ :=
    exec_smallActions (m := 0) (n := 1) (x := str "b") (y := str "c") (by decide) (by decide)
  exact ⟨w, _, hexec, tasks_atMostOnce smallSystem () _ w _ hexec fun a ha payload hp =>
    roundTrips_smallActions (by decide) (by decide) ha hp⟩

end FileEngine.Tasks
