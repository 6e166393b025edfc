import Mathlib.Tactic.Common

/-!
# Programs over an outside world

A `Machine` is an interface to the world: calls with their replies, the state they act
on, the choices that are left to the environment (failures, random names) and the
effects that a call reports. A program issues calls and goes on with the replies; it
runs against every sequence of choices.

`Prog.Wp` is the weakest precondition of a program for a set of effects and a
postcondition, with one rule for each way of building a program; `run_of_wp` is its
soundness. `Prog.Can` is its dual, for a run that the environment can bring about.
`Prog.Under` is the weakest precondition in an environment that keeps to some rules,
`Prog.Obeys` says of a run that it does, and `Prog.Reaches` that there is such a run to
some end. `Prog.Issues` speaks of the calls themselves.
`run_rel` carries a transitive relation between states along a run. `Machine.remote` puts a
line between the program and the machine, on which replies can change.
-/

namespace FileEngine.Go

structure Machine where
  State : Type
  Call : Type
  Reply : Call → Type
  Choice : Type
  Effect : Type
  exec : (c : Call) → Choice → State → Reply c × State × List Effect

inductive Prog (M : Machine) (α : Type)
  | ret (a : α)
  | step (c : M.Call) (k : M.Reply c → Prog M α)

/-- A finished run: the result, the last state and all effects in their order. -/
structure Ran (M : Machine) (α : Type) where
  value : α
  state : M.State
  effects : List M.Effect

namespace Prog

variable {M : Machine} {α β γ : Type}

def bind : Prog M α → (α → Prog M β) → Prog M β
  | ret a, f => f a
  | step c k, f => step c fun r => (k r).bind f

instance : Monad (Prog M) where
  pure := ret
  bind := bind

theorem bind_assoc (p : Prog M α) (f : α → Prog M β) (g : β → Prog M γ) :
    p >>= f >>= g = p >>= fun a => f a >>= g := by
  induction p with
  | ret a => rfl
  | step c k ih => exact congrArg (step c) (funext ih)

/-- A run against a sequence of choices, one for each call. -/
def run : Prog M α → (Nat → M.Choice) → M.State → Ran M α
  | ret a, _, s => ⟨a, s, []⟩
  | step c k, choices, s =>
      let (r, s', effects) := M.exec c (choices 0) s
      let rest := (k r).run (fun n => choices (n + 1)) s'
      ⟨rest.value, rest.state, effects ++ rest.effects⟩

/-- Run a program and hand on its error as a value. -/
def attempt {ε : Type} (p : ExceptT ε (Prog M) α) : ExceptT ε (Prog M) (Except ε α) :=
  ExceptT.lift p.run

/-- The number of calls of a run. -/
def calls : Prog M α → (Nat → M.Choice) → M.State → Nat
  | ret _, _, _ => 0
  | step c k, choices, s =>
      (k (M.exec c (choices 0) s).1).calls (fun n => choices (n + 1))
        (M.exec c (choices 0) s).2.1 + 1

/-- The choices that a run leaves to whatever comes next. -/
def left (p : Prog M α) (choices : Nat → M.Choice) (s : M.State) : Nat → M.Choice :=
  fun n => choices (n + p.calls choices s)

/-- The second program runs where the first has ended, against the choices that are left. -/
theorem run_bind (p : Prog M β) (f : β → Prog M α) (choices : Nat → M.Choice) (s : M.State) :
    ((p >>= f).run choices s).value =
        ((f (p.run choices s).value).run (p.left choices s) (p.run choices s).state).value ∧
      ((p >>= f).run choices s).state =
        ((f (p.run choices s).value).run (p.left choices s) (p.run choices s).state).state := by
  induction p generalizing choices s with
  | ret b => exact ⟨rfl, rfl⟩
  | step c k ih => exact ih _ _ _

section

variable {ε : Type} {p : ExceptT ε (Prog M) β} {choices : Nat → M.Choice} {s : M.State}

theorem run_bindE_ok {b : β} (h : (run p.run choices s).value = .ok b)
    (f : β → ExceptT ε (Prog M) γ) :
    (run (p >>= f).run choices s).value =
        (run (f b).run (left p.run choices s) (run p.run choices s).state).value ∧
      (run (p >>= f).run choices s).state =
        (run (f b).run (left p.run choices s) (run p.run choices s).state).state := by
  have hrun := run_bind p.run (ExceptT.bindCont f) choices s
  rwa [h] at hrun

theorem run_bindE_error {e : ε} (h : (run p.run choices s).value = .error e)
    (f : β → ExceptT ε (Prog M) γ) :
    (run (p >>= f).run choices s).value = .error e ∧
      (run (p >>= f).run choices s).state = (run p.run choices s).state := by
  have hrun := run_bind p.run (ExceptT.bindCont f) choices s
  rwa [h] at hrun

end

/-- The weakest precondition: whatever the choices are, all effects from here on are in
`G` and the program ends in `Q`. -/
def Wp (G : M.Effect → Prop) (Q : α → M.State → Prop) : Prog M α → M.State → Prop
  | ret a, s => Q a s
  | step c k, s => ∀ choice, (∀ e ∈ (M.exec c choice s).2.2, G e) ∧
      (k (M.exec c choice s).1).Wp G Q (M.exec c choice s).2.1

section

variable {G : M.Effect → Prop} {Q : α → M.State → Prop}

theorem wp_bind {p : Prog M β} {f : β → Prog M α} {s : M.State}
    (h : Wp G (fun b s' => Wp G Q (f b) s') p s) : Wp G Q (p >>= f) s := by
  induction p generalizing s with
  | ret b => exact h
  | step c k ih => exact fun choice => ⟨(h choice).1, ih _ (h choice).2⟩

theorem wp_mono {Q' : α → M.State → Prop} (hQ : ∀ a s, Q a s → Q' a s) {p : Prog M α}
    {s : M.State} (h : Wp G Q p s) : Wp G Q' p s := by
  induction p generalizing s with
  | ret a => exact hQ a s h
  | step c k ih => exact fun choice => ⟨(h choice).1, ih _ (h choice).2⟩

/-- Every program does something and ends somehow. -/
theorem wp_trivial (p : Prog M α) (s : M.State) : Wp (fun _ => True) (fun _ _ => True) p s := by
  induction p generalizing s with
  | ret a => exact trivial
  | step c k ih => exact fun choice => ⟨fun _ _ => trivial, ih _ _⟩

/-- The rule for one call: look at whatever it can do. -/
theorem wp_call {c : M.Call} {Q : M.Reply c → M.State → Prop} {s : M.State}
    (h : ∀ choice r s' effects, M.exec c choice s = (r, s', effects) →
      (∀ e ∈ effects, G e) ∧ Q r s') : Wp G Q (step c ret) s :=
  fun choice => h choice _ _ _ rfl

/-- The rule for the sequence of two programs that may return an error. -/
theorem wp_bindE {ε : Type} {p : ExceptT ε (Prog M) β} {f : β → ExceptT ε (Prog M) γ}
    {Q : Except ε γ → M.State → Prop} {s : M.State}
    (h : Wp G (fun r s' => match r with
      | .ok b => Wp G Q (f b).run s'
      | .error e => Q (.error e) s') p.run s) : Wp G Q (p >>= f).run s := by
  refine wp_bind (wp_mono (fun r s' hr => ?_) h)
  cases r with
  | ok b => exact hr
  | error e => exact hr

theorem wp_attempt {ε : Type} {p : ExceptT ε (Prog M) β}
    {Q : Except ε (Except ε β) → M.State → Prop} {s : M.State}
    (h : Wp G (fun r s' => Q (.ok r) s') p.run s) : Wp G Q (attempt p).run s := by
  refine wp_bind (wp_mono (fun r s' hr => ?_) h)
  exact hr

/-- The rule is sound for every run. -/
theorem run_of_wp {p : Prog M α} {s : M.State} (h : Wp G Q p s) (choices : Nat → M.Choice) :
    (∀ e ∈ (p.run choices s).effects, G e) ∧
      Q (p.run choices s).value (p.run choices s).state := by
  induction p generalizing s choices with
  | ret a => exact ⟨fun e he => absurd he List.not_mem_nil, h⟩
  | step c k ih =>
    obtain ⟨hg, hrest⟩ := h (choices 0)
    obtain ⟨hg', hq⟩ := ih _ hrest fun n => choices (n + 1)
    refine ⟨fun e he => ?_, hq⟩
    rcases List.mem_append.mp he with he | he
    · exact hg e he
    · exact hg' e he

end

/-- The program can end in `Q`: some choices of the environment lead there. -/
def Can (Q : α → M.State → Prop) : Prog M α → M.State → Prop
  | ret a, s => Q a s
  | step c k, s => ∃ choice, (k (M.exec c choice s).1).Can Q (M.exec c choice s).2.1

section

variable {Q : α → M.State → Prop}

theorem can_bind {p : Prog M β} {f : β → Prog M α} {s : M.State}
    (h : Can (fun b s' => Can Q (f b) s') p s) : Can Q (p >>= f) s := by
  induction p generalizing s with
  | ret b => exact h
  | step c k ih =>
    obtain ⟨choice, hrest⟩ := h
    exact ⟨choice, ih _ hrest⟩

theorem can_mono {Q' : α → M.State → Prop} (hQ : ∀ a s, Q a s → Q' a s) {p : Prog M α}
    {s : M.State} (h : Can Q p s) : Can Q' p s := by
  induction p generalizing s with
  | ret a => exact hQ a s h
  | step c k ih =>
    obtain ⟨choice, hrest⟩ := h
    exact ⟨choice, ih _ hrest⟩

theorem can_call {c : M.Call} {Q : M.Reply c → M.State → Prop} {s s' : M.State}
    (choice : M.Choice) {r : M.Reply c} {effects : List M.Effect}
    (hexec : M.exec c choice s = (r, s', effects)) (hQ : Q r s') : Can Q (step c ret) s := by
  refine ⟨choice, ?_⟩
  rw [hexec]
  exact hQ

theorem can_bindE {ε : Type} {p : ExceptT ε (Prog M) β} {f : β → ExceptT ε (Prog M) γ}
    {Q : Except ε γ → M.State → Prop} {s : M.State}
    (h : Can (fun r s' => match r with
      | .ok b => Can Q (f b).run s'
      | .error e => Q (.error e) s') p.run s) : Can Q (p >>= f).run s := by
  refine can_bind (can_mono (fun r s' hr => ?_) h)
  cases r with
  | ok b => exact hr
  | error e => exact hr

theorem can_attempt {ε : Type} {p : ExceptT ε (Prog M) β}
    {Q : Except ε (Except ε β) → M.State → Prop} {s : M.State}
    (h : Can (fun r s' => Q (.ok r) s') p.run s) : Can Q (attempt p).run s :=
  can_bind (can_mono (fun _ _ hr => hr) h)

theorem run_of_can [Inhabited M.Choice] {p : Prog M α} {s : M.State} (h : Can Q p s) :
    ∃ choices, Q (p.run choices s).value (p.run choices s).state := by
  induction p generalizing s with
  | ret a => exact ⟨fun _ => default, h⟩
  | step c k ih =>
    obtain ⟨choice, hrest⟩ := h
    obtain ⟨choices, hQ⟩ := ih _ hrest
    refine ⟨fun | 0 => choice | n + 1 => choices n, ?_⟩
    exact hQ

end

/-- Whatever an environment chooses that keeps to `E`, the program ends in `Q`. -/
def Under (E : M.Call → M.Choice → M.State → Prop) (Q : α → M.State → Prop) :
    Prog M α → M.State → Prop
  | ret a, s => Q a s
  | step c k, s => ∀ choice, E c choice s →
      (k (M.exec c choice s).1).Under E Q (M.exec c choice s).2.1

/-- All choices of a run keep to `E`. -/
def Obeys (E : M.Call → M.Choice → M.State → Prop) :
    Prog M α → (Nat → M.Choice) → M.State → Prop
  | ret _, _, _ => True
  | step c k, choices, s => E c (choices 0) s ∧
      (k (M.exec c (choices 0) s).1).Obeys E (fun n => choices (n + 1)) (M.exec c (choices 0) s).2.1

section

variable {E : M.Call → M.Choice → M.State → Prop} {Q : α → M.State → Prop}

theorem under_bind {p : Prog M β} {f : β → Prog M α} {s : M.State}
    (h : Under E (fun b s' => Under E Q (f b) s') p s) : Under E Q (p >>= f) s := by
  induction p generalizing s with
  | ret b => exact h
  | step c k ih => exact fun choice hchoice => ih _ (h choice hchoice)

theorem under_mono {Q' : α → M.State → Prop} (hQ : ∀ a s, Q a s → Q' a s) {p : Prog M α}
    {s : M.State} (h : Under E Q p s) : Under E Q' p s := by
  induction p generalizing s with
  | ret a => exact hQ a s h
  | step c k ih => exact fun choice hchoice => ih _ (h choice hchoice)

theorem under_call {c : M.Call} {Q : M.Reply c → M.State → Prop} {s : M.State}
    (h : ∀ choice, E c choice s → ∀ r s' effects, M.exec c choice s = (r, s', effects) → Q r s') :
    Under E Q (step c ret) s :=
  fun choice hchoice => h choice hchoice _ _ _ rfl

theorem under_bindE {ε : Type} {p : ExceptT ε (Prog M) β} {f : β → ExceptT ε (Prog M) γ}
    {Q : Except ε γ → M.State → Prop} {s : M.State}
    (h : Under E (fun r s' => match r with
      | .ok b => Under E Q (f b).run s'
      | .error e => Q (.error e) s') p.run s) : Under E Q (p >>= f).run s := by
  refine under_bind (under_mono (fun r s' hr => ?_) h)
  cases r with
  | ok b => exact hr
  | error e => exact hr

theorem under_attempt {ε : Type} {p : ExceptT ε (Prog M) β}
    {Q : Except ε (Except ε β) → M.State → Prop} {s : M.State}
    (h : Under E (fun r s' => Q (.ok r) s') p.run s) : Under E Q (attempt p).run s :=
  under_bind (under_mono (fun _ _ hr => hr) h)

theorem under_of_wp {G : M.Effect → Prop} {p : Prog M α} {s : M.State} (h : Wp G Q p s) :
    Under E Q p s := by
  induction p generalizing s with
  | ret a => exact h
  | step c k ih => exact fun choice _ => ih _ (h choice).2

theorem wp_of_under {p : Prog M α} {s : M.State} (h : Under (fun _ _ _ => True) Q p s) :
    Wp (fun _ => True) Q p s := by
  induction p generalizing s with
  | ret a => exact h
  | step c k ih => exact fun choice => ⟨fun _ _ => trivial, ih _ (h choice trivial)⟩

theorem run_of_under {p : Prog M α} {s : M.State} (h : Under E Q p s)
    {choices : Nat → M.Choice} (hE : Obeys E p choices s) :
    Q (p.run choices s).value (p.run choices s).state := by
  induction p generalizing s choices with
  | ret a => exact h
  | step c k ih => exact ih _ (h (choices 0) hE.1) hE.2

theorem obeys_of_forall {choices : Nat → M.Choice} (h : ∀ n c s, E c (choices n) s)
    (p : Prog M α) (s : M.State) : Obeys E p choices s := by
  induction p generalizing s choices with
  | ret a => exact trivial
  | step c k ih => exact ⟨h 0 c s, ih _ (fun n => h (n + 1)) _⟩

end

/-- Some choices that keep to `E` lead to this end. -/
def Reaches (E : M.Call → M.Choice → M.State → Prop) : Prog M α → M.State → α → M.State → Prop
  | ret a, s, a', s' => a' = a ∧ s' = s
  | step c k, s, a', s' => ∃ choice, E c choice s ∧
      (k (M.exec c choice s).1).Reaches E (M.exec c choice s).2.1 a' s'

section

variable {E : M.Call → M.Choice → M.State → Prop} {s s' s'' : M.State}

theorem reaches_bind {p : Prog M β} {f : β → Prog M α} {b : β} {a : α} (h : Reaches E p s b s')
    (hf : Reaches E (f b) s' a s'') : Reaches E (p >>= f) s a s'' := by
  induction p generalizing s with
  | ret b =>
    obtain ⟨rfl, rfl⟩ := h
    exact hf
  | step c k ih =>
    obtain ⟨choice, hE, hrest⟩ := h
    exact ⟨choice, hE, ih _ hrest⟩

theorem reaches_call {c : M.Call} {r : M.Reply c} {effects : List M.Effect} (choice : M.Choice)
    (hE : E c choice s) (hexec : M.exec c choice s = (r, s', effects)) :
    Reaches E (step c ret) s r s' := by
  refine ⟨choice, hE, ?_⟩
  rw [hexec]
  exact ⟨rfl, rfl⟩

theorem reaches_bindE {ε : Type} {p : ExceptT ε (Prog M) β} {f : β → ExceptT ε (Prog M) γ} {b : β}
    {r : Except ε γ} (h : Reaches E p.run s (.ok b) s') (hf : Reaches E (f b).run s' r s'') :
    Reaches E (p >>= f).run s r s'' :=
  reaches_bind h hf

theorem reaches_attempt {ε : Type} {p : ExceptT ε (Prog M) β} {r : Except ε β}
    (h : Reaches E p.run s r s') : Reaches E (attempt p).run s (.ok r) s' :=
  reaches_bind h ⟨rfl, rfl⟩

theorem run_of_reaches [Inhabited M.Choice] {p : Prog M α} {a : α} (h : Reaches E p s a s') :
    ∃ choices, Obeys E p choices s ∧ (p.run choices s).value = a ∧
      (p.run choices s).state = s' := by
  induction p generalizing s with
  | ret b =>
    obtain ⟨rfl, rfl⟩ := h
    exact ⟨fun _ => default, trivial, rfl, rfl⟩
  | step c k ih =>
    obtain ⟨choice, hE, hrest⟩ := h
    obtain ⟨choices, hobeys, hvalue, hstate⟩ := ih _ hrest
    exact ⟨fun | 0 => choice | n + 1 => choices n, ⟨hE, hobeys⟩, hvalue, hstate⟩

end

/-- Whatever the choices are, all calls from here on are in `P`. -/
def Issues (P : M.Call → Prop) : Prog M α → M.State → Prop
  | ret _, _ => True
  | step c k, s => P c ∧ ∀ choice, (k (M.exec c choice s).1).Issues P (M.exec c choice s).2.1

section

variable {P : M.Call → Prop} {s : M.State}

theorem issues_bind {p : Prog M β} {f : β → Prog M α} (h : Issues P p s)
    (hf : ∀ b s', Issues P (f b) s') : Issues P (p >>= f) s := by
  induction p generalizing s with
  | ret b => exact hf b s
  | step c k ih => exact ⟨h.1, fun choice => ih _ (h.2 choice)⟩

theorem issues_call {c : M.Call} (h : P c) : Issues P (step c ret) s := ⟨h, fun _ => trivial⟩

theorem issues_bindE {ε : Type} {p : ExceptT ε (Prog M) β} {f : β → ExceptT ε (Prog M) γ}
    (h : Issues P p.run s) (hf : ∀ b s', Issues P (f b).run s') : Issues P (p >>= f).run s := by
  refine issues_bind h fun r s' => ?_
  cases r with
  | ok b => exact hf b s'
  | error e => exact trivial

theorem issues_attempt {ε : Type} {p : ExceptT ε (Prog M) β} (h : Issues P p.run s) :
    Issues P (attempt p).run s :=
  issues_bind h fun _ _ => trivial

end

/-- A reflexive and transitive relation that every call keeps, as long as its effects are
in `G`, holds between the ends of a run with effects in `G`. -/
theorem run_rel (R : M.State → M.State → Prop) (hrefl : ∀ s, R s s)
    (htrans : ∀ s t u, R s t → R t u → R s u) {G : M.Effect → Prop}
    (hexec : ∀ c choice s, (∀ e ∈ (M.exec c choice s).2.2, G e) → R s (M.exec c choice s).2.1)
    (p : Prog M α) (choices : Nat → M.Choice) (s : M.State)
    (hG : ∀ e ∈ (p.run choices s).effects, G e) : R s (p.run choices s).state := by
  induction p generalizing s choices with
  | ret a => exact hrefl s
  | step c k ih =>
    have hfirst := hexec c (choices 0) s fun e he => hG e (List.mem_append_left _ he)
    have hrest := ih _ (fun n => choices (n + 1)) (M.exec c (choices 0) s).2.1
      fun e he => hG e (List.mem_append_right _ he)
    exact htrans _ _ _ hfirst hrest

end Prog

/-! ## Machines at the end of a line -/

/-- The machine at the far end of a line. A call is made there, and the program hears of the
reply what the line leaves of it. -/
abbrev Machine.remote (M : Machine) {L : Type} (hear : L → (c : M.Call) → M.Reply c → M.Reply c) :
    Machine where
  State := M.State
  Call := M.Call
  Reply := M.Reply
  Choice := M.Choice × L
  Effect := M.Effect
  exec c choice s :=
    let (r, s', effects) := M.exec c choice.1 s
    (hear choice.2 c r, s', effects)

namespace Prog

variable {M : Machine} {L α β γ : Type} {hear : L → (c : M.Call) → M.Reply c → M.Reply c}

/-- The same program, with its calls over the line. -/
def remote (hear : L → (c : M.Call) → M.Reply c → M.Reply c) : Prog M α → Prog (M.remote hear) α
  | ret a => ret a
  | step c k => step (M := M.remote hear) c fun r => (k r).remote hear

theorem remote_bind (p : Prog M β) (f : β → Prog M α) :
    (p >>= f).remote hear = p.remote hear >>= fun b => (f b).remote hear := by
  induction p with
  | ret b => rfl
  | step c k ih => exact congrArg (step (M := M.remote hear) c) (funext ih)

/-- Over a line that leaves every reply as it is, the program runs as on the spot. -/
theorem run_remote (hear : L → (c : M.Call) → M.Reply c → M.Reply c) {l : L}
    (hl : ∀ c r, hear l c r = r) (p : Prog M α) (choices : Nat → M.Choice) (s : M.State) :
    ((p.remote hear).run (fun n => (choices n, l)) s).value = (p.run choices s).value ∧
      ((p.remote hear).run (fun n => (choices n, l)) s).state = (p.run choices s).state := by
  induction p generalizing choices s with
  | ret a => exact ⟨rfl, rfl⟩
  | step c k ih =>
    simp only [remote, run, hl]
    exact ih _ _ _

/-- What holds over a line that leaves every reply as it is holds on the spot. -/
theorem under_of_remote (hear : L → (c : M.Call) → M.Reply c → M.Reply c) {l : L}
    (hl : ∀ c r, hear l c r = r)
    {E : M.Call → M.Choice × L → M.State → Prop} {Q : α → M.State → Prop} {p : Prog M α}
    {s : M.State} (h : Under (M := M.remote hear) E Q (p.remote hear) s) :
    Under (fun c choice s => E c (choice, l) s) Q p s := by
  induction p generalizing s with
  | ret a => exact h
  | step c k ih =>
    intro choice hchoice
    refine ih _ ?_
    rw [← hl c (M.exec c choice s).1]
    exact h (choice, l) hchoice

section

variable {E : M.Call → M.Choice × L → M.State → Prop} {s : M.State}
  (hear : L → (c : M.Call) → M.Reply c → M.Reply c)

theorem under_remote_call {c : M.Call} {Q : M.Reply c → M.State → Prop}
    (h : ∀ choice l, E c (choice, l) s → ∀ r s' effects, M.exec c choice s = (r, s', effects) →
      Q (hear l c r) s') : Under (M := M.remote hear) E Q ((step c ret).remote hear) s :=
  fun choice hchoice => h choice.1 choice.2 hchoice _ _ _ rfl

theorem under_remote_bindE {ε : Type} {p : ExceptT ε (Prog M) β} {f : β → ExceptT ε (Prog M) γ}
    {Q : Except ε γ → M.State → Prop}
    (h : Under (M := M.remote hear) E (fun r s' => match r with
      | .ok b => Under (M := M.remote hear) E Q ((f b).run.remote hear) s'
      | .error e => Q (.error e) s') (p.run.remote hear) s) :
    Under (M := M.remote hear) E Q ((p >>= f).run.remote hear) s := by
  rw [show (p >>= f).run = p.run >>= ExceptT.bindCont f from rfl, remote_bind]
  refine under_bind (under_mono (fun r s' hr => ?_) h)
  cases r with
  | ok b => exact hr
  | error e => exact hr

end

section

variable {G : M.Effect → Prop} {s : M.State} (hear : L → (c : M.Call) → M.Reply c → M.Reply c)

theorem wp_remote_call {c : M.Call} {Q : M.Reply c → M.State → Prop}
    (h : ∀ choice r s' effects, M.exec c choice s = (r, s', effects) →
      (∀ e ∈ effects, G e) ∧ ∀ l, Q (hear l c r) s') :
    Wp (M := M.remote hear) G Q ((step c ret).remote hear) s :=
  fun choice => ⟨(h choice.1 _ _ _ rfl).1, (h choice.1 _ _ _ rfl).2 choice.2⟩

theorem wp_remote_bind {p : Prog M β} {f : β → Prog M α} {Q : α → M.State → Prop}
    (h : Wp (M := M.remote hear) G (fun b s' => Wp (M := M.remote hear) G Q ((f b).remote hear) s')
      (p.remote hear) s) :
    Wp (M := M.remote hear) G Q ((p >>= f).remote hear) s := by
  rw [remote_bind]
  exact wp_bind h

theorem wp_remote_bindE {ε : Type} {p : ExceptT ε (Prog M) β} {f : β → ExceptT ε (Prog M) γ}
    {Q : Except ε γ → M.State → Prop}
    (h : Wp (M := M.remote hear) G (fun r s' => match r with
      | .ok b => Wp (M := M.remote hear) G Q ((f b).run.remote hear) s'
      | .error e => Q (.error e) s') (p.run.remote hear) s) :
    Wp (M := M.remote hear) G Q ((p >>= f).run.remote hear) s := by
  refine wp_remote_bind hear (wp_mono (fun r s' hr => ?_) h)
  cases r with
  | ok b => exact hr
  | error e => exact hr

theorem wp_remote_attempt {ε : Type} {p : ExceptT ε (Prog M) β}
    {Q : Except ε (Except ε β) → M.State → Prop}
    (h : Wp (M := M.remote hear) G (fun r s' => Q (.ok r) s') (p.run.remote hear) s) :
    Wp (M := M.remote hear) G Q ((attempt p).run.remote hear) s :=
  wp_remote_bind hear (wp_mono (fun _ _ hr => hr) h)

end

end Prog

end FileEngine.Go
