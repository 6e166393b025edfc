import FileEngine.Go.Program
import Mathlib.Data.List.Infix
import Mathlib.Logic.Function.Basic

/-!
# Programs side by side

A `Pool` is a family of programs that share the state of one machine. A schedule says
whose call comes next and what the environment chooses for it; `run` follows it. There
are as many programs as the index type has elements, and a schedule can leave any of
them unfinished, so its prefixes are all the states in which the pool can be seen.

A `Protocol` is an agreement between the programs. Each program has a ghost value, which
says how far it is and what it owns. `Guar` is what one call of a program may do to its
ghost value and to the state, `Rely` is what a program expects of the calls of the
others, and `step` says that the two fit. `Follows` is the rule by which a single program
is shown to keep the protocol, with one rule for each way of building a program;
`run_induction` carries a property from call to call along every schedule. A protocol
with a `CommitPoint` lets each program do one thing that others can see (`run_commits`).

`Prog.CanBy` is for runs that do go wrong: one program alone can end in a bad way, with
all its calls in some relation, and `run_alone` makes a schedule of that. `Prog.Emits` bounds
the effects of a program in whatever state it is continued.
-/

namespace FileEngine.Go

/-- Programs and the state they share. -/
structure Pool (M : Machine) (ι α : Type) where
  progs : ι → Prog M α
  state : M.State

namespace Pool

variable {M : Machine} {ι α : Type}

/-- What program `i` has returned, if it has ended. -/
def result (p : Pool M ι α) (i : ι) : Option α :=
  match p.progs i with
  | .ret a => some a
  | .step _ _ => none

theorem result_eq_some {p : Pool M ι α} {i : ι} {a : α} :
    p.result i = some a ↔ p.progs i = .ret a := by
  unfold result
  split <;> simp_all

/-- After `before` it is the turn of `i`. -/
def Turn (sched before : List (ι × M.Choice)) (i : ι) (choice : M.Choice) : Prop :=
  before ++ [(i, choice)] <+: sched

theorem turn_concat_iff {sched before : List (ι × M.Choice)} {i j : ι} {choice choice' : M.Choice} :
    Turn (sched ++ [(j, choice')]) before i choice ↔
      (before = sched ∧ i = j ∧ choice = choice') ∨ Turn sched before i choice := by
  unfold Turn
  rw [List.prefix_concat_iff]
  refine or_congr_left ⟨fun h => ?_, ?_⟩
  · obtain ⟨hbefore, hturn⟩ := List.append_inj' h rfl
    simp only [List.cons.injEq, Prod.mk.injEq, and_true] at hturn
    exact ⟨hbefore, hturn⟩
  · rintro ⟨rfl, rfl, rfl⟩
    rfl

theorem Turn.length_lt {sched before : List (ι × M.Choice)} {i : ι} {choice : M.Choice}
    (h : Turn sched before i choice) : before.length < sched.length := by
  have hlen := h.length_le
  rw [List.length_append, List.length_singleton] at hlen
  omega

variable [DecidableEq ι]

/-- The next call of program `i`, and its effects; a program that has ended does nothing. -/
def next (p : Pool M ι α) (i : ι) (choice : M.Choice) : Pool M ι α × List M.Effect :=
  match p.progs i with
  | .ret _ => (p, [])
  | .step c k =>
      let (r, s, effects) := M.exec c choice p.state
      (⟨Function.update p.progs i (k r), s⟩, effects)

def run (p : Pool M ι α) (sched : List (ι × M.Choice)) : Pool M ι α :=
  sched.foldl (fun p turn => (p.next turn.1 turn.2).1) p

theorem run_concat (p : Pool M ι α) (sched : List (ι × M.Choice)) (i : ι) (choice : M.Choice) :
    p.run (sched ++ [(i, choice)]) = ((p.run sched).next i choice).1 := by
  simp [run]

/-- All effects of a run, each with the program that caused it and the state it met. -/
def log (p : Pool M ι α) : List (ι × M.Choice) → List (ι × M.State × M.Effect)
  | [] => []
  | (i, choice) :: rest =>
      (p.next i choice).2.map (fun e => (i, p.state, e)) ++ (p.next i choice).1.log rest

theorem log_append (p : Pool M ι α) (sched rest : List (ι × M.Choice)) :
    p.log (sched ++ rest) = p.log sched ++ (p.run sched).log rest := by
  induction sched generalizing p with
  | nil => rfl
  | cons turn sched ih =>
    obtain ⟨i, choice⟩ := turn
    rw [List.cons_append, log, log, ih, List.append_assoc]
    rfl

theorem mem_log {p : Pool M ι α} {sched before : List (ι × M.Choice)} {i : ι}
    {choice : M.Choice} (h : Turn sched before i choice) {e : M.Effect}
    (he : e ∈ ((p.run before).next i choice).2) : (i, (p.run before).state, e) ∈ p.log sched := by
  obtain ⟨rest, rfl⟩ := h
  rw [List.append_assoc, log_append]
  refine List.mem_append_right _ (List.mem_append_left _ ?_)
  exact List.mem_map_of_mem he

/-- Every effect of the run is as `A` allows it for that program in that state. -/
def Allowed (A : ι → M.State → M.Effect → Prop) (p : Pool M ι α)
    (sched : List (ι × M.Choice)) : Prop :=
  ∀ i s e, (i, s, e) ∈ p.log sched → A i s e

/-- The states before and after a turn of `i` are related. -/
def TurnRel (p : Pool M ι α) (R : ι → M.State → M.State → Prop)
    (before : List (ι × M.Choice)) (i : ι) (choice : M.Choice) : Prop :=
  R i (p.run before).state (p.run (before ++ [(i, choice)])).state

/-- Every turn of `i` in the schedule is quiet. -/
def AllQuiet (Quiet : ι → M.State → M.State → Prop) (p : Pool M ι α)
    (sched : List (ι × M.Choice)) (i : ι) : Prop :=
  ∀ before choice, Turn sched before i choice → p.TurnRel Quiet before i choice

/-- One turn of `i` in the schedule commits, and all others are quiet. -/
def CommitsOnce (Quiet Commits : ι → M.State → M.State → Prop) (p : Pool M ι α)
    (sched : List (ι × M.Choice)) (i : ι) : Prop :=
  ∃ before choice, Turn sched before i choice ∧ p.TurnRel Commits before i choice ∧
    ∀ before' choice', Turn sched before' i choice' → before' ≠ before →
      p.TurnRel Quiet before' i choice'

section

variable {p : Pool M ι α} {Quiet Commits : ι → M.State → M.State → Prop}
  {sched : List (ι × M.Choice)} {i j : ι} {choice : M.Choice}

theorem allQuiet_concat (h : p.AllQuiet Quiet sched i)
    (hturn : i = j → p.TurnRel Quiet sched j choice) :
    p.AllQuiet Quiet (sched ++ [(j, choice)]) i := by
  intro before choice' ht
  rcases turn_concat_iff.mp ht with ⟨rfl, rfl, rfl⟩ | ht
  · exact hturn rfl
  · exact h before choice' ht

theorem commitsOnce_concat (h : p.CommitsOnce Quiet Commits sched i)
    (hturn : i = j → p.TurnRel Quiet sched j choice) :
    p.CommitsOnce Quiet Commits (sched ++ [(j, choice)]) i := by
  obtain ⟨before, choice', ht, hcommit, hothers⟩ := h
  refine ⟨before, choice', turn_concat_iff.mpr (Or.inr ht), hcommit, fun before' choice'' ht' hne => ?_⟩
  rcases turn_concat_iff.mp ht' with ⟨rfl, rfl, rfl⟩ | ht'
  · exact hturn rfl
  · exact hothers before' choice'' ht' hne

theorem commitsOnce_of_allQuiet (h : p.AllQuiet Quiet sched i)
    (hcommit : p.TurnRel Commits sched i choice) :
    p.CommitsOnce Quiet Commits (sched ++ [(i, choice)]) i := by
  refine ⟨sched, choice, turn_concat_iff.mpr (Or.inl ⟨rfl, rfl, rfl⟩), hcommit, ?_⟩
  intro before choice' ht hne
  rcases turn_concat_iff.mp ht with ⟨hbefore, _⟩ | ht
  · exact absurd hbefore hne
  · exact h before choice' ht

/-- A property of states that quiet and committing turns keep. -/
theorem run_invariant {J : M.State → Prop} (hstart : J p.state)
    (hturns : ∀ before i choice, Turn sched before i choice →
      p.TurnRel Quiet before i choice ∨ p.TurnRel Commits before i choice)
    (hquiet : ∀ i s s', J s → Quiet i s s' → J s')
    (hcommit : ∀ i s s', J s → Commits i s s' → J s') : J (p.run sched).state := by
  induction sched using List.reverseRecOn with
  | nil => exact hstart
  | append_singleton sched turn ih =>
    obtain ⟨j, choice'⟩ := turn
    have hJ := ih fun before i choice ht =>
      hturns before i choice (turn_concat_iff.mpr (Or.inr ht))
    rcases hturns sched j choice' (turn_concat_iff.mpr (Or.inl ⟨rfl, rfl, rfl⟩)) with h | h
    · exact hquiet j _ _ hJ h
    · exact hcommit j _ _ hJ h

end

end Pool

/-! ## One program alone -/

namespace Prog

variable {M : Machine} {α β γ : Type}

/-- Some choices lead to an end in `Q`, and on the way every call is in `R`. -/
def CanBy (R : M.State → M.State → Prop) (Q : α → M.State → Prop) : Prog M α → M.State → Prop
  | ret a, s => Q a s
  | step c k, s => ∃ choice, R s (M.exec c choice s).2.1 ∧
      (k (M.exec c choice s).1).CanBy R Q (M.exec c choice s).2.1

variable {R : M.State → M.State → Prop} {Q : α → M.State → Prop} {s : M.State}

theorem canBy_mono {Q' : α → M.State → Prop} (hQ : ∀ a s, Q a s → Q' a s) {p : Prog M α}
    (h : CanBy R Q p s) : CanBy R Q' p s := by
  induction p generalizing s with
  | ret a => exact hQ a s h
  | step c k ih =>
    obtain ⟨choice, hcall, hrest⟩ := h
    exact ⟨choice, hcall, ih _ hrest⟩

theorem canBy_bind {p : Prog M β} {f : β → Prog M α}
    (h : CanBy R (fun b s' => CanBy R Q (f b) s') p s) : CanBy R Q (p >>= f) s := by
  induction p generalizing s with
  | ret b => exact h
  | step c k ih =>
    obtain ⟨choice, hcall, hrest⟩ := h
    exact ⟨choice, hcall, ih _ hrest⟩

theorem canBy_call {c : M.Call} {Q : M.Reply c → M.State → Prop} {s' : M.State}
    (choice : M.Choice) {r : M.Reply c} {effects : List M.Effect}
    (hexec : M.exec c choice s = (r, s', effects)) (hR : R s s') (hQ : Q r s') :
    CanBy R Q (step c ret) s := by
  refine ⟨choice, ?_⟩
  rw [hexec]
  exact ⟨hR, hQ⟩

theorem canBy_bindE {ε : Type} {p : ExceptT ε (Prog M) β} {f : β → ExceptT ε (Prog M) γ}
    {Q : Except ε γ → M.State → Prop}
    (h : CanBy R (fun r s' => match r with
      | .ok b => CanBy R Q (f b).run s'
      | .error e => Q (.error e) s') p.run s) : CanBy R Q (p >>= f).run s := by
  refine canBy_bind (canBy_mono (fun r s' hr => ?_) h)
  cases r with
  | ok b => exact hr
  | error e => exact hr

theorem canBy_attempt {ε : Type} {p : ExceptT ε (Prog M) β}
    {Q : Except ε (Except ε β) → M.State → Prop}
    (h : CanBy R (fun r s' => Q (.ok r) s') p.run s) : CanBy R Q (attempt p).run s :=
  canBy_bind (canBy_mono (fun _ _ hr => hr) h)

/-- A schedule on which only program `i` has its turns, each of them in `R`. -/
theorem run_alone {ι : Type} [DecidableEq ι] {i : ι} (p : Pool M ι α)
    (h : CanBy R Q (p.progs i) p.state) : ∃ sched a,
      (∀ before j choice, Pool.Turn sched before j choice →
        p.TurnRel (fun _ => R) before j choice) ∧
      (p.run sched).progs i = .ret a ∧ Q a (p.run sched).state := by
  generalize hprog : p.progs i = prog at h
  induction prog generalizing p with
  | ret a =>
    exact ⟨[], a, fun _ _ _ ht => absurd ht.length_lt (Nat.not_lt_zero _), hprog, h⟩
  | step c k ih =>
    obtain ⟨choice, hcall, hrest⟩ := h
    have hnext : (p.next i choice).1 =
        ⟨Function.update p.progs i (k (M.exec c choice p.state).1),
          (M.exec c choice p.state).2.1⟩ := by
      simp only [Pool.next, hprog]
    obtain ⟨sched, a, hturns, hret, hQ⟩ := ih (M.exec c choice p.state).1 (p.next i choice).1
      (by rw [hnext]; exact Function.update_self ..) (by rw [hnext]; exact hrest)
    refine ⟨(i, choice) :: sched, a, fun before j choice' ht => ?_, hret, hQ⟩
    cases before with
    | nil =>
      obtain ⟨rfl, rfl⟩ : j = i ∧ choice' = choice := by
        simpa [Pool.Turn, List.cons_prefix_cons] using ht
      show R p.state (p.next j choice').1.state
      rw [hnext]
      exact hcall
    | cons turn before =>
      obtain ⟨rfl, hrestTurn⟩ := List.cons_prefix_cons.mp ht
      exact hturns before j choice' hrestTurn

end Prog

/-! ## The effects of a program -/

namespace Prog

variable {M : Machine} {α β γ : Type} {G : M.Effect → Prop}

/-- All effects of the program are in `G`, whatever state its calls find. -/
def Emits (G : M.Effect → Prop) : Prog M α → Prop
  | ret _ => True
  | step c k => ∀ choice s, (∀ e ∈ (M.exec c choice s).2.2, G e) ∧
      (k (M.exec c choice s).1).Emits G

theorem emits_bind {p : Prog M β} {f : β → Prog M α} (h : Emits G p)
    (hf : ∀ b, Emits G (f b)) : Emits G (p >>= f) := by
  induction p with
  | ret b => exact hf b
  | step c k ih => exact fun choice s => ⟨(h choice s).1, ih _ (h choice s).2⟩

theorem emits_call {c : M.Call} (h : ∀ choice s, ∀ e ∈ (M.exec c choice s).2.2, G e) :
    Emits G (step c ret) :=
  fun choice s => ⟨h choice s, trivial⟩

theorem emits_bindE {ε : Type} {p : ExceptT ε (Prog M) β} {f : β → ExceptT ε (Prog M) γ}
    (h : Emits G p.run) (hf : ∀ b, Emits G (f b).run) : Emits G (p >>= f).run := by
  refine emits_bind h fun r => ?_
  cases r with
  | ok b => exact hf b
  | error e => exact trivial

theorem emits_attempt {ε : Type} {p : ExceptT ε (Prog M) β} (h : Emits G p.run) :
    Emits G (attempt p).run :=
  emits_bind h fun _ => trivial

end Prog

namespace Pool

variable {M : Machine} {ι α : Type} [DecidableEq ι]

theorem emits_next {G : M.Effect → Prop} {p : Pool M ι α} (h : ∀ i, (p.progs i).Emits G) (i : ι)
    (choice : M.Choice) :
    (∀ e ∈ (p.next i choice).2, G e) ∧ ∀ j, ((p.next i choice).1.progs j).Emits G := by
  unfold next
  split
  · exact ⟨fun e he => absurd he List.not_mem_nil, h⟩
  · rename_i c k hprog
    have hi := h i
    rw [hprog] at hi
    refine ⟨(hi choice p.state).1, fun j => ?_⟩
    by_cases hj : j = i
    · subst hj
      simp only [Function.update_self]
      exact (hi choice p.state).2
    · simp only [Function.update_of_ne hj]
      exact h j

/-- What the programs emit in every state, they emit side by side. -/
theorem allowed_of_emits {G : M.Effect → Prop} {p : Pool M ι α}
    (h : ∀ i, (p.progs i).Emits G) (sched : List (ι × M.Choice)) :
    p.Allowed (fun _ _ => G) sched := by
  induction sched generalizing p with
  | nil => exact fun _ _ _ he => absurd he List.not_mem_nil
  | cons turn sched ih =>
    obtain ⟨i, choice⟩ := turn
    obtain ⟨heffects, hnext⟩ := emits_next h i choice
    intro j s e he
    rcases List.mem_append.mp he with he | he
    · obtain ⟨e', he', heq⟩ := List.mem_map.mp he
      cases heq
      exact heffects e he'
    · exact ih hnext j s e he

end Pool

/-! ## Ghost values -/

section

variable {ι Γ κ : Type} [DecidableEq ι] {γ : ι → Γ} {i j j' : ι} {g' : Γ}

/-- After a step of `i`, a ghost value is the new one of `i` or that of another program. -/
theorem of_update {R : Γ → Prop} (h : R (Function.update γ i g' j)) :
    (j = i ∧ R g') ∨ (j ≠ i ∧ R (γ j)) := by
  by_cases hj : j = i
  · subst hj
    rw [Function.update_self] at h
    exact Or.inl ⟨rfl, h⟩
  · rw [Function.update_of_ne hj] at h
    exact Or.inr ⟨hj, h⟩

/-- Owners stay apart if what `i` owns after its step is owned by no one else. -/
theorem owner_update {R : Γ → κ → Prop} (h : ∀ j j' k, R (γ j) k → R (γ j') k → j = j')
    (hself : ∀ k, R g' k → ∀ j, j ≠ i → ¬ R (γ j) k) {k : κ}
    (hj : R (Function.update γ i g' j) k) (hj' : R (Function.update γ i g' j') k) : j = j' := by
  rcases of_update (R := (R · k)) hj with ⟨hji, hnew⟩ | ⟨hji, hold⟩ <;>
    rcases of_update (R := (R · k)) hj' with ⟨hji', hnew'⟩ | ⟨hji', hold'⟩
  · rw [hji, hji']
  · exact absurd hold' (hself k hnew j' hji')
  · exact absurd hold (hself k hnew' j hji)
  · exact h j j' k hold hold'

end

/-- An agreement between programs over one machine. -/
structure Protocol (M : Machine) (ι Γ : Type) [DecidableEq ι] where
  Rely : ι → Γ → M.State → M.State → Prop
  Guar : ι → Γ → M.State → Γ → M.State → Prop
  Inv : (ι → Γ) → M.State → Prop
  rely_refl : ∀ i g s, Rely i g s s
  rely_trans : ∀ i g s s' s'', Rely i g s s' → Rely i g s' s'' → Rely i g s s''
  stutter : ∀ i g s, Guar i g s g s
  step : ∀ γ s i g' s', Inv γ s → Guar i (γ i) s g' s' →
    Inv (Function.update γ i g') s' ∧ ∀ j, j ≠ i → Rely j (γ j) s s'

namespace Protocol

variable {M : Machine} {ι Γ α β δ : Type} [DecidableEq ι]

/-- The program keeps the protocol as number `i`, from the ghost value and the state that
it left behind: whatever the others did in between, each of its calls with allowed
effects is in `Guar`, and it ends in `Q`. -/
def Follows (P : Protocol M ι Γ) (A : M.State → M.Effect → Prop) (i : ι)
    (Q : α → Γ → M.State → Prop) : Prog M α → Γ → M.State → Prop
  | .ret a, g, s => Q a g s
  | .step c k, g, s => ∀ s', P.Rely i g s s' → ∀ choice,
      (∀ e ∈ (M.exec c choice s').2.2, A s' e) →
      ∃ g', P.Guar i g s' g' (M.exec c choice s').2.1 ∧
        P.Follows A i Q (k (M.exec c choice s').1) g' (M.exec c choice s').2.1

section

variable {P : Protocol M ι Γ} {A : M.State → M.Effect → Prop} {i : ι} {g : Γ} {s : M.State}

theorem follows_bind {Q : α → Γ → M.State → Prop} {p : Prog M β} {f : β → Prog M α}
    (h : P.Follows A i (fun b g' s' => P.Follows A i Q (f b) g' s') p g s) :
    P.Follows A i Q (p >>= f) g s := by
  induction p generalizing g s with
  | ret b => exact h
  | step c k ih =>
    intro s' hrely choice heff
    obtain ⟨g', hguar, hrest⟩ := h s' hrely choice heff
    exact ⟨g', hguar, ih _ hrest⟩

theorem follows_mono {Q Q' : α → Γ → M.State → Prop} (hQ : ∀ a g s, Q a g s → Q' a g s)
    {p : Prog M α} (h : P.Follows A i Q p g s) : P.Follows A i Q' p g s := by
  induction p generalizing g s with
  | ret a => exact hQ a g s h
  | step c k ih =>
    intro s' hrely choice heff
    obtain ⟨g', hguar, hrest⟩ := h s' hrely choice heff
    exact ⟨g', hguar, ih _ hrest⟩

/-- The rule for one call. -/
theorem follows_call {c : M.Call} {Q : M.Reply c → Γ → M.State → Prop}
    (h : ∀ s', P.Rely i g s s' → ∀ choice r s'' effects,
      M.exec c choice s' = (r, s'', effects) → (∀ e ∈ effects, A s' e) →
      ∃ g', P.Guar i g s' g' s'' ∧ Q r g' s'') :
    P.Follows A i Q (Prog.step c Prog.ret) g s :=
  fun s' hrely choice heff => h s' hrely choice _ _ _ rfl heff

/-- The rule for the sequence of two programs that may return an error. -/
theorem follows_bindE {ε : Type} {p : ExceptT ε (Prog M) β} {f : β → ExceptT ε (Prog M) δ}
    {Q : Except ε δ → Γ → M.State → Prop}
    (h : P.Follows A i (fun r g' s' => match r with
      | .ok b => P.Follows A i Q (f b).run g' s'
      | .error e => Q (.error e) g' s') p.run g s) : P.Follows A i Q (p >>= f).run g s := by
  refine follows_bind (follows_mono (fun r g' s' hr => ?_) h)
  cases r with
  | ok b => exact hr
  | error e => exact hr

theorem follows_attempt {ε : Type} {p : ExceptT ε (Prog M) β}
    {Q : Except ε (Except ε β) → Γ → M.State → Prop}
    (h : P.Follows A i (fun r g' s' => Q (.ok r) g' s') p.run g s) :
    P.Follows A i Q (Prog.attempt p).run g s :=
  follows_bind (follows_mono (fun _ _ _ hr => hr) h)

/-- What the others do does not disturb a program that keeps the protocol. -/
theorem Follows.of_rely {Q : α → Γ → M.State → Prop}
    (hQ : ∀ a g s s', Q a g s → P.Rely i g s s' → Q a g s') {p : Prog M α} {s' : M.State}
    (h : P.Follows A i Q p g s) (hrely : P.Rely i g s s') : P.Follows A i Q p g s' := by
  cases p with
  | ret a => exact hQ a g s s' h hrely
  | step c k => exact fun s'' hrely' => h s'' (P.rely_trans i g s s' s'' hrely hrely')

end

/-- What is known of a pool whose programs keep the protocol. -/
structure Holds (P : Protocol M ι Γ) (A : ι → M.State → M.Effect → Prop)
    (Q : ι → α → Γ → Prop) (γ : ι → Γ) (p : Pool M ι α) : Prop where
  inv : P.Inv γ p.state
  follows : ∀ i, P.Follows (A i) i (fun a g _ => Q i a g) (p.progs i) (γ i) p.state

variable {P : Protocol M ι Γ} {A : ι → M.State → M.Effect → Prop} {Q : ι → α → Γ → Prop}

/-- A program that has ended has ended as promised. -/
theorem Holds.ended {γ : ι → Γ} {p : Pool M ι α} (h : P.Holds A Q γ p) {i : ι} {a : α}
    (hret : p.progs i = .ret a) : Q i a (γ i) := by
  have hi := h.follows i
  rw [hret] at hi
  exact hi

/-- One call keeps everything, and is in `Guar`. -/
theorem Holds.next {γ : ι → Γ} {p : Pool M ι α} (h : P.Holds A Q γ p) {i : ι}
    {choice : M.Choice} (hA : ∀ e ∈ (p.next i choice).2, A i p.state e) :
    ∃ g', P.Guar i (γ i) p.state g' (p.next i choice).1.state ∧
      P.Holds A Q (Function.update γ i g') (p.next i choice).1 := by
  cases hprog : p.progs i with
  | ret a =>
    have hnext : p.next i choice = (p, []) := by simp only [Pool.next, hprog]
    refine ⟨γ i, ?_, ?_⟩
    · rw [hnext]
      exact P.stutter i _ _
    · rw [hnext, Function.update_eq_self]
      exact h
  | step c k =>
    have hnext : p.next i choice =
        (⟨Function.update p.progs i (k (M.exec c choice p.state).1),
          (M.exec c choice p.state).2.1⟩, (M.exec c choice p.state).2.2) := by
      simp only [Pool.next, hprog]
    rw [hnext] at hA ⊢
    have hi := h.follows i
    rw [hprog] at hi
    obtain ⟨g', hguar, hrest⟩ := hi p.state (P.rely_refl i _ _) choice hA
    obtain ⟨hinv, hrely⟩ := P.step γ p.state i g' _ h.inv hguar
    refine ⟨g', hguar, hinv, fun j => ?_⟩
    by_cases hj : j = i
    · subst hj
      simpa using hrest
    · simp only [Function.update_of_ne hj]
      exact (h.follows j).of_rely (fun _ _ _ _ hq _ => hq) (hrely j hj)

/-- **Induction along a schedule.** If the programs keep the protocol, then a property that
holds at the start and is kept by every allowed call in `Guar` holds after every
schedule. -/
theorem run_induction {p : Pool M ι α} {γ₀ : ι → Γ} (h₀ : P.Holds A Q γ₀ p)
    (motive : List (ι × M.Choice) → (ι → Γ) → Prop) (hstart : motive [] γ₀)
    {sched : List (ι × M.Choice)} (hA : p.Allowed A sched)
    (hstep : ∀ before i choice γ g', Pool.Turn sched before i choice → motive before γ →
      P.Inv γ (p.run before).state →
      P.Guar i (γ i) (p.run before).state g' (p.run (before ++ [(i, choice)])).state →
      motive (before ++ [(i, choice)]) (Function.update γ i g')) :
    ∃ γ, motive sched γ ∧ P.Holds A Q γ (p.run sched) := by
  suffices hsub : ∀ before, before <+: sched →
      ∃ γ, motive before γ ∧ P.Holds A Q γ (p.run before) from
    hsub sched List.prefix_rfl
  intro before
  induction before using List.reverseRecOn with
  | nil => exact fun _ => ⟨γ₀, hstart, h₀⟩
  | append_singleton before turn ih =>
    obtain ⟨i, choice⟩ := turn
    intro hturn
    obtain ⟨γ, hmotive, hholds⟩ := ih ((List.prefix_append _ _).trans hturn)
    obtain ⟨g', hguar, hnext⟩ := hholds.next fun e he => hA i _ e (Pool.mem_log hturn he)
    rw [← Pool.run_concat] at hguar hnext
    exact ⟨Function.update γ i g',
      hstep before i choice γ g' hturn hmotive hholds.inv hguar, hnext⟩

/-! ## Commit points -/

/-- Every call in `Guar` is quiet, except for the one with which a program commits: from
then on its ghost value is `done`. -/
structure CommitPoint (P : Protocol M ι Γ) (done : Γ → Prop)
    (Quiet Commits : ι → M.State → M.State → Prop) : Prop where
  quiet : ∀ γ s i g' s', P.Inv γ s → P.Guar i (γ i) s g' s' → (done g' → done (γ i)) →
    Quiet i s s'
  commit : ∀ γ s i g' s', P.Inv γ s → P.Guar i (γ i) s g' s' → ¬ done (γ i) → done g' →
    Commits i s s'
  keeps : ∀ i g s g' s', P.Guar i g s g' s' → done g → done g'

/-- What the turns of a schedule were like, by the ghost values after it. -/
structure Committed (done : Γ → Prop) (Quiet Commits : ι → M.State → M.State → Prop)
    (p : Pool M ι α) (sched : List (ι × M.Choice)) (γ : ι → Γ) : Prop where
  once : ∀ i, done (γ i) → p.CommitsOnce Quiet Commits sched i
  quiet : ∀ i, ¬ done (γ i) → p.AllQuiet Quiet sched i
  turns : ∀ before i choice, Pool.Turn sched before i choice →
    p.TurnRel Quiet before i choice ∨ p.TurnRel Commits before i choice

variable {done : Γ → Prop} {Quiet Commits : ι → M.State → M.State → Prop} {p : Pool M ι α}
  {sched : List (ι × M.Choice)}

theorem committed_nil {γ : ι → Γ} (h : ∀ i, ¬ done (γ i)) :
    Committed done Quiet Commits p [] γ where
  once i hdone := absurd hdone (h i)
  quiet _ _ _ _ ht := absurd ht.length_lt (Nat.not_lt_zero _)
  turns _ _ _ ht := absurd ht.length_lt (Nat.not_lt_zero _)

theorem Committed.concat (hP : P.CommitPoint done Quiet Commits) {γ : ι → Γ}
    (h : Committed done Quiet Commits p sched γ) (hinv : P.Inv γ (p.run sched).state) {i : ι}
    {choice : M.Choice} {g' : Γ}
    (hguar : P.Guar i (γ i) (p.run sched).state g' (p.run (sched ++ [(i, choice)])).state) :
    Committed done Quiet Commits p (sched ++ [(i, choice)]) (Function.update γ i g') := by
  have hquiet : (done g' → done (γ i)) → p.TurnRel Quiet sched i choice :=
    hP.quiet γ _ i g' _ hinv hguar
  have hcommit : ¬ done (γ i) → done g' → p.TurnRel Commits sched i choice :=
    hP.commit γ _ i g' _ hinv hguar
  refine ⟨fun j hj => ?_, fun j hj => ?_, fun before j choice' ht => ?_⟩
  · rcases of_update hj with ⟨rfl, hnew⟩ | ⟨hji, hold⟩
    · by_cases hdone : done (γ j)
      · exact Pool.commitsOnce_concat (h.once j hdone) fun _ => hquiet fun _ => hdone
      · exact Pool.commitsOnce_of_allQuiet (h.quiet j hdone) (hcommit hdone hnew)
    · exact Pool.commitsOnce_concat (h.once j hold) fun he => absurd he hji
  · rcases of_update (R := fun g => ¬ done g) hj with ⟨rfl, hnew⟩ | ⟨hji, hold⟩
    · have hdone : ¬ done (γ j) := fun hdone => hnew (hP.keeps j _ _ g' _ hguar hdone)
      exact Pool.allQuiet_concat (h.quiet j hdone) fun _ => hquiet fun hg' => absurd hg' hnew
    · exact Pool.allQuiet_concat (h.quiet j hold) fun he => absurd he hji
  · rcases Pool.turn_concat_iff.mp ht with ⟨rfl, rfl, rfl⟩ | ht
    · by_cases hdone : done g' → done (γ j)
      · exact Or.inl (hquiet hdone)
      · obtain ⟨hg', hg⟩ := Classical.not_imp.mp hdone
        exact Or.inr (hcommit hg hg')
    · exact h.turns before j choice' ht

/-- **Commit points.** After every schedule, a program that is done has committed in
exactly one of its turns, and the turns of the others were all quiet. -/
theorem run_commits (hP : P.CommitPoint done Quiet Commits) {γ₀ : ι → Γ}
    (h₀ : P.Holds A Q γ₀ p) (hstart : ∀ i, ¬ done (γ₀ i)) (hA : p.Allowed A sched) :
    ∃ γ, Committed done Quiet Commits p sched γ ∧ P.Holds A Q γ (p.run sched) := by
  apply run_induction h₀ _ (committed_nil hstart) hA
  intro before i choice γ g' _ hcommitted hinv hguar
  exact hcommitted.concat hP hinv hguar

/-! ## Two agreements at once -/

/-- The programs keep two agreements, each with a ghost value of its own. `Link` is what is known
of the two ghost values of one program. -/
def both {Δ : Type} (P : Protocol M ι Γ) (P' : Protocol M ι Δ) (Link : Γ → Δ → Prop)
    (hlink : ∀ γ s i g' s' d d', P.Inv γ s → P.Guar i (γ i) s g' s' → P'.Guar i d s d' s' →
      Link (γ i) d → Link g' d') : Protocol M ι (Γ × Δ) where
  Rely i g s s' := P.Rely i g.1 s s' ∧ P'.Rely i g.2 s s'
  Guar i g s g' s' := P.Guar i g.1 s g'.1 s' ∧ P'.Guar i g.2 s g'.2 s'
  Inv γ s := P.Inv (fun i => (γ i).1) s ∧ P'.Inv (fun i => (γ i).2) s ∧
    ∀ i, Link (γ i).1 (γ i).2
  rely_refl i g s := ⟨P.rely_refl i g.1 s, P'.rely_refl i g.2 s⟩
  rely_trans i g s s' s'' h h' :=
    ⟨P.rely_trans i g.1 s s' s'' h.1 h'.1, P'.rely_trans i g.2 s s' s'' h.2 h'.2⟩
  stutter i g s := ⟨P.stutter i g.1 s, P'.stutter i g.2 s⟩
  step := by
    rintro γ s i g' s' ⟨hinv, hinv', hlinked⟩ ⟨hguar, hguar'⟩
    obtain ⟨hnext, hrely⟩ := P.step _ s i g'.1 s' hinv hguar
    obtain ⟨hnext', hrely'⟩ := P'.step _ s i g'.2 s' hinv' hguar'
    have hfst : (fun j => (Function.update γ i g' j).1) =
        Function.update (fun j => (γ j).1) i g'.1 := by
      funext j
      exact Function.apply_update (fun _ x => x.1) γ i g' j
    have hsnd : (fun j => (Function.update γ i g' j).2) =
        Function.update (fun j => (γ j).2) i g'.2 := by
      funext j
      exact Function.apply_update (fun _ x => x.2) γ i g' j
    rw [hfst, hsnd]
    refine ⟨⟨hnext, hnext', fun j => ?_⟩, fun j hj => ⟨hrely j hj, hrely' j hj⟩⟩
    by_cases hj : j = i
    · subst hj
      rw [Function.update_self]
      exact hlink _ s j g'.1 s' _ g'.2 hinv hguar hguar' (hlinked j)
    · rw [Function.update_of_ne hj]
      exact hlinked j

section

variable {Δ : Type} {P' : Protocol M ι Δ} {Link : Γ → Δ → Prop}
  {hlink : ∀ γ s i g' s' d d', P.Inv γ s → P.Guar i (γ i) s g' s' → P'.Guar i d s d' s' →
    Link (γ i) d → Link g' d'}

theorem follows_both {A : M.State → M.Effect → Prop} {i : ι} {Q : α → Γ → M.State → Prop}
    {Q' : α → Δ → M.State → Prop} {p : Prog M α} {g : Γ} {d : Δ} {s : M.State}
    (h : P.Follows A i Q p g s) (h' : P'.Follows A i Q' p d s) :
    (P.both P' Link hlink).Follows A i (fun a g s => Q a g.1 s ∧ Q' a g.2 s) p (g, d) s := by
  induction p generalizing g d s with
  | ret a => exact ⟨h, h'⟩
  | step c k ih =>
    intro s' hrely choice heff
    obtain ⟨g', hguar, hrest⟩ := h s' hrely.1 choice heff
    obtain ⟨d', hguar', hrest'⟩ := h' s' hrely.2 choice heff
    exact ⟨(g', d'), ⟨hguar, hguar'⟩, ih _ hrest hrest'⟩

theorem Holds.both {Q' : ι → α → Δ → Prop} {γ : ι → Γ} {δ : ι → Δ} (h : P.Holds A Q γ p)
    (h' : P'.Holds A Q' δ p) (hlinked : ∀ i, Link (γ i) (δ i)) :
    (P.both P' Link hlink).Holds A (fun i a g => Q i a g.1 ∧ Q' i a g.2)
      (fun i => (γ i, δ i)) p where
  inv := ⟨h.inv, h'.inv, hlinked⟩
  follows i := follows_both (h.follows i) (h'.follows i)

end

end Protocol

end FileEngine.Go
