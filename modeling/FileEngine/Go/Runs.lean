import Mathlib.Data.List.Induction
import Mathlib.Tactic.Common

/-!
# Runs of a transition system

A system takes actions one at a time. An action that is not enabled in a state is refused; any
other one leads to a state and reports events. `exec` is the run of a list of actions, with the
log of all events in their order.

`exec_invariant` is the induction along a run, `exec_event` leads from an event of the log to
the step that reported it, and `exec_simulates` carries a simulation of the steps over to the
runs.
-/

namespace FileEngine.Go

abbrev Step (S A E : Type) := S → A → Option (S × List E)

namespace Step

variable {S A E T B F : Type}

def exec (step : Step S A E) : List A → S → Option (S × List E)
  | [], s => some (s, [])
  | a :: rest, s =>
      match step s a with
      | none => none
      | some (s', events) => (exec step rest s').map fun (s'', log) => (s'', events ++ log)

section

variable {step : Step S A E} {s s' s'' : S} {log : List E}

theorem exec_cons {a : A} {rest : List A} :
    exec step (a :: rest) s = some (s'', log) ↔
      ∃ s' events log', step s a = some (s', events) ∧ exec step rest s' = some (s'', log') ∧
        log = events ++ log' := by
  rw [exec]
  constructor
  · intro h
    split at h
    · cases h
    · rename_i s' events hstep
      obtain ⟨⟨s₂, log'⟩, hrest, heq⟩ := Option.map_eq_some_iff.mp h
      cases heq
      exact ⟨s', events, log', hstep, hrest, rfl⟩
  · rintro ⟨s', events, log', hstep, hrest, rfl⟩
    rw [hstep]
    exact Option.map_eq_some_iff.mpr ⟨_, hrest, rfl⟩

theorem exec_one {a : A} {events : List E} (h : step s a = some (s', events)) :
    exec step [a] s = some (s', events) := exec_cons.mpr ⟨s', events, [], h, rfl, by simp⟩

theorem exec_append {done rest : List A} :
    exec step (done ++ rest) s = some (s'', log) ↔
      ∃ s' before after, exec step done s = some (s', before) ∧
        exec step rest s' = some (s'', after) ∧ log = before ++ after := by
  induction done generalizing s log with
  | nil =>
    constructor
    · intro h
      exact ⟨s, [], log, rfl, h, rfl⟩
    · rintro ⟨s', before, after, hdone, hrest, rfl⟩
      cases hdone
      exact hrest
  | cons a done ih =>
    rw [List.cons_append, exec_cons]
    constructor
    · rintro ⟨s₁, events, log₁, hstep, hexec, rfl⟩
      obtain ⟨s', before, after, hdone, hrest, rfl⟩ := ih.mp hexec
      exact ⟨s', events ++ before, after, exec_cons.mpr ⟨s₁, events, before, hstep, hdone, rfl⟩,
        hrest, (List.append_assoc _ _ _).symm⟩
    · rintro ⟨s', before, after, hdone, hrest, rfl⟩
      obtain ⟨s₁, events, log₁, hstep, hexec, rfl⟩ := exec_cons.mp hdone
      exact ⟨s₁, events, log₁ ++ after, hstep, ih.mpr ⟨s', log₁, after, hexec, hrest, rfl⟩,
        List.append_assoc _ _ _⟩

/-- An invariant of the steps is an invariant of the runs. It may speak of the actions and the
events so far. -/
theorem exec_invariant {actions : List A} (Inv : List A → S → List E → Prop)
    (hstep : ∀ done a s log s' events, Inv done s log → step s a = some (s', events) →
      Inv (done ++ [a]) s' (log ++ events))
    (hinit : Inv [] s []) (hexec : exec step actions s = some (s', log)) : Inv actions s' log := by
  induction actions using List.reverseRecOn generalizing s' log with
  | nil =>
    cases hexec
    exact hinit
  | append_singleton done a ih =>
    obtain ⟨s₁, before, after, hdone, hlast, rfl⟩ := exec_append.mp hexec
    obtain ⟨s₂, events, log', hone, hnil, rfl⟩ := exec_cons.mp hlast
    cases hnil
    rw [List.append_nil]
    exact hstep done a s₁ before _ events (ih hdone) hone

/-- The same, where what is known of the runs so far may be used. -/
theorem exec_invariant_of_run {actions : List A} (Inv : S → List E → Prop)
    (hstep : ∀ done a s₁ log s₂ events, exec step done s = some (s₁, log) → Inv s₁ log →
      step s₁ a = some (s₂, events) → Inv s₂ (log ++ events))
    (hinit : Inv s []) (hexec : exec step actions s = some (s', log)) : Inv s' log := by
  have hboth : exec step actions s = some (s', log) ∧ Inv s' log := by
    refine exec_invariant (fun done s₁ log => exec step done s = some (s₁, log) ∧ Inv s₁ log)
      (fun done a s₁ log s₂ events h hone => ?_) ⟨rfl, hinit⟩ hexec
    exact ⟨exec_append.mpr ⟨s₁, log, events, h.1, exec_one hone, rfl⟩,
      hstep done a s₁ log s₂ events h.1 h.2 hone⟩
  exact hboth.2

/-- What holds of the events of every action that is taken holds of all events of the run. -/
theorem exec_forall {P : E → Prop} {actions : List A}
    (hstep : ∀ a ∈ actions, ∀ s s' events, step s a = some (s', events) → ∀ e ∈ events, P e)
    (hexec : exec step actions s = some (s', log)) : ∀ e ∈ log, P e := by
  induction actions generalizing s log with
  | nil =>
    cases hexec
    exact nofun
  | cons a rest ih =>
    obtain ⟨s₁, events, log', hone, hrest, rfl⟩ := exec_cons.mp hexec
    intro e he
    rcases List.mem_append.mp he with he | he
    · exact hstep a (.head _) s s₁ events hone e he
    · exact ih (fun b hb => hstep b (.tail _ hb)) hrest e he

/-- A step reports one event at most. -/
def Single (step : Step S A E) : Prop :=
  ∀ s a s' events, step s a = some (s', events) → events.length ≤ 1

/-- The step that reported an event. -/
theorem exec_event (hsingle : Single step) {actions : List A} {before after : List E} {e : E}
    (h : exec step actions s = some (s', before ++ e :: after)) :
    ∃ done a rest s₁ s₂, actions = done ++ a :: rest ∧ exec step done s = some (s₁, before) ∧
      step s₁ a = some (s₂, [e]) ∧ exec step rest s₂ = some (s', after) := by
  induction actions generalizing s before with
  | nil =>
    simp [exec] at h
  | cons a rest ih =>
    obtain ⟨s₁, events, log', hstep, hrest, heq⟩ := exec_cons.mp h
    have hone := hsingle s a s₁ events hstep
    match events, hone with
    | [], _ =>
      rw [List.nil_append] at heq
      subst heq
      obtain ⟨done, b, rest', s₂, s₃, rfl, hdone, hb, hafter⟩ := ih hrest
      exact ⟨a :: done, b, rest', s₂, s₃, rfl, exec_cons.mpr ⟨s₁, [], _, hstep, hdone, rfl⟩, hb,
        hafter⟩
    | [x], _ =>
      cases before with
      | nil =>
        obtain ⟨rfl, rfl⟩ := List.cons.inj heq
        exact ⟨[], a, rest, s, s₁, rfl, rfl, hstep, hrest⟩
      | cons y before =>
        obtain ⟨rfl, rfl⟩ := List.cons.inj heq
        obtain ⟨done, b, rest', s₂, s₃, rfl, hdone, hb, hafter⟩ := ih hrest
        exact ⟨a :: done, b, rest', s₂, s₃, rfl,
          exec_cons.mpr ⟨s₁, [y], _, hstep, hdone, rfl⟩, hb, hafter⟩

end

/-- Every step of the first system is a run of the second one between related states, with the
events that the first one's stand for. Then so is every run. -/
theorem exec_simulates {step : Step S A E} {step' : Step T B F} (R : S → T → Prop)
    (meaning : E → List F)
    (hstep : ∀ a s s' events t, R s t → step s a = some (s', events) →
      ∃ actions t', exec step' actions t = some (t', events.flatMap meaning) ∧ R s' t')
    {actions : List A} {s s' : S} {log : List E} {t : T} (hR : R s t)
    (hexec : exec step actions s = some (s', log)) :
    ∃ actions' t', exec step' actions' t = some (t', log.flatMap meaning) ∧ R s' t' := by
  induction actions generalizing s t log with
  | nil =>
    cases hexec
    exact ⟨[], t, rfl, hR⟩
  | cons a rest ih =>
    obtain ⟨s₁, events, log', hone, hrest, rfl⟩ := exec_cons.mp hexec
    obtain ⟨first, t₁, hfirst, hR₁⟩ := hstep a s s₁ events t hR hone
    obtain ⟨second, t', hsecond, hR'⟩ := ih hR₁ hrest
    exact ⟨first ++ second, t', exec_append.mpr ⟨t₁, _, _, hfirst, hsecond,
      List.flatMap_append⟩, hR'⟩

end Step

end FileEngine.Go
