import Mathlib.Tactic.Common

/-!
# Computations over a state

A computation runs over a state, ends with a result or an error, or does not end
(`none`). `Ends m s r s'` says that `m`, run from `s`, ends with `r` in the state `s'`;
the rules below evaluate a computation written in `do` notation step by step.
`Errs P m` says that `m` ends from every state, and with no other errors than those in
`P`; it is proved along the structure of the computation.
-/

namespace FileEngine.Go

abbrev Comp (ε ω : Type) := ExceptT ε (StateT ω Option)

variable {ε ω α β : Type}

def Ends (m : Comp ε ω α) (s : ω) (r : Except ε α) (s' : ω) : Prop := m.run.run s = some (r, s')

theorem Ends.unique {m : Comp ε ω α} {s s₁ s₂ : ω} {r₁ r₂ : Except ε α} (h₁ : Ends m s r₁ s₁)
    (h₂ : Ends m s r₂ s₂) : r₁ = r₂ ∧ s₁ = s₂ :=
  Prod.mk.inj (Option.some.inj (h₁.symm.trans h₂))

/-- A computation that ends in one of two ways. -/
theorem Ends.ok_iff {m : Comp ε ω α} {s s' : ω} {b : Bool} {a : α} {e : ε}
    (h : Ends m s (if b then .ok a else .error e) s') : (∃ s'', Ends m s (.ok a) s'') ↔ b = true := by
  cases b with
  | true => exact iff_of_true ⟨s', h⟩ rfl
  | false =>
    refine iff_of_false ?_ Bool.false_ne_true
    rintro ⟨s'', h'⟩
    cases (h.unique h').1

theorem ends_pure (a : α) (s : ω) : Ends (pure a : Comp ε ω α) s (.ok a) s := rfl

theorem ends_throw (e : ε) (s : ω) : Ends (throw e : Comp ε ω α) s (.error e) s := rfl

theorem ends_bind_ok {m : Comp ε ω α} {f : α → Comp ε ω β} {s s' s'' : ω} {a : α}
    {r : Except ε β} (h : Ends m s (.ok a) s') (hf : Ends (f a) s' r s'') :
    Ends (m >>= f) s r s'' := by
  unfold Ends at *
  simp only [ExceptT.run_bind, StateT.run_bind, h, Option.bind_eq_bind, Option.bind_some]
  exact hf

theorem ends_bind_error {m : Comp ε ω α} {s s' : ω} {e : ε} (h : Ends m s (.error e) s')
    (f : α → Comp ε ω β) : Ends (m >>= f) s (.error e) s' := by
  unfold Ends at *
  simp only [ExceptT.run_bind, StateT.run_bind, h, Option.bind_eq_bind, Option.bind_some]
  rfl

theorem ends_get (s : ω) : Ends (get : Comp ε ω ω) s (.ok s) s := rfl

theorem ends_set (s s' : ω) : Ends (set s' : Comp ε ω PUnit) s (.ok ⟨⟩) s' := rfl

theorem ends_modify (f : ω → ω) (s : ω) : Ends (modify f : Comp ε ω PUnit) s (.ok ⟨⟩) (f s) := rfl

/-- A partial function that has a value. -/
theorem ends_lift {o : Option α} {a : α} (h : o = some a) (s : ω) :
    Ends (liftM o : Comp ε ω α) s (.ok a) s := by
  subst h
  rfl

/-- Run a computation and hand on its error as a value. -/
def observe (m : Comp ε ω α) : Comp ε ω (Except ε α) := ExceptT.lift m.run

theorem ends_observe {m : Comp ε ω α} {s s' : ω} {r : Except ε α} (h : Ends m s r s') :
    Ends (observe m) s (.ok r) s' := by
  unfold Ends at *
  simp only [observe, ExceptT.run_lift, StateT.run_map, h]
  rfl

/-! ## Which errors a computation may return -/

section

variable {P : ε → Prop}

def Errs (P : ε → Prop) (m : Comp ε ω α) : Prop :=
  ∀ s, ∃ r s', Ends m s r s' ∧ ∀ e, r = .error e → P e

theorem Errs.of_ends {m : Comp ε ω α} (h : ∀ s, ∃ a s', Ends m s (.ok a) s') : Errs P m := by
  intro s
  obtain ⟨a, s', hend⟩ := h s
  exact ⟨.ok a, s', hend, fun e he => by cases he⟩

theorem Errs.pure (a : α) : Errs P (Pure.pure a : Comp ε ω α) :=
  .of_ends fun s => ⟨a, s, ends_pure a s⟩

theorem Errs.get : Errs P (MonadState.get : Comp ε ω ω) := .of_ends fun s => ⟨s, s, ends_get s⟩

theorem Errs.set (s' : ω) : Errs P (MonadStateOf.set s' : Comp ε ω PUnit) :=
  .of_ends fun s => ⟨⟨⟩, s', ends_set s s'⟩

theorem Errs.throw {e : ε} (he : P e) : Errs P (MonadExcept.throw e : Comp ε ω α) := by
  intro s
  refine ⟨.error e, s, ends_throw e s, fun e' h => ?_⟩
  cases h
  exact he

theorem Errs.bind {m : Comp ε ω α} {f : α → Comp ε ω β} (hm : Errs P m)
    (hf : ∀ a, Errs P (f a)) : Errs P (m >>= f) := by
  intro s
  obtain ⟨r, s', hend, herr⟩ := hm s
  cases r with
  | error e => exact ⟨.error e, s', ends_bind_error hend f, fun e' h => herr e' (by cases h; rfl)⟩
  | ok a =>
    obtain ⟨r, s'', hend', herr'⟩ := hf a s'
    exact ⟨r, s'', ends_bind_ok hend hend', herr'⟩

theorem Errs.forIn (xs : List α) {f : α → β → Comp ε ω (ForInStep β)}
    (hf : ∀ a b, Errs P (f a b)) (b : β) : Errs P (ForIn.forIn xs b f) := by
  induction xs generalizing b with
  | nil => exact .pure b
  | cons x xs ih =>
    rw [List.forIn_cons]
    refine (hf x b).bind fun step => ?_
    cases step with
    | done b' => exact .pure b'
    | yield b' => exact ih b'

end

end FileEngine.Go
