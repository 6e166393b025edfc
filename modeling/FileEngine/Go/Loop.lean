import Mathlib.Logic.Function.Basic
import Mathlib.Tactic.Common

/-!
# Loops

Two shapes of loops and the rules for them.

* `loop body n s` runs `for { ... }` from the state `s` for at most `n` rounds; a
  round continues with a new state or breaks with a result. `loop_mono` says that more
  rounds never change a result, `loop_diverges` that a set of states closed under
  continuing, from which the loop never breaks, has no result at all.
* `forIn_search` is a `for ... range` loop whose body only ever returns `true` early.
-/

namespace FileEngine.Go

variable {σ ρ : Type}

/-- `for { ... }` for at most `n` rounds. -/
def loop (body : σ → σ ⊕ ρ) : Nat → σ → Option ρ
  | 0, _ => none
  | n + 1, s =>
      match body s with
      | .inl s' => loop body n s'
      | .inr r => some r

/-- The loop breaks after finitely many rounds. -/
def LoopTerminates (body : σ → σ ⊕ ρ) (s : σ) : Prop := ∃ n r, loop body n s = some r

theorem loop_continue {body : σ → σ ⊕ ρ} {s s' : σ} (h : body s = .inl s') (n : Nat) :
    loop body (n + 1) s = loop body n s' := by
  simp only [loop, h]

theorem loop_break {body : σ → σ ⊕ ρ} {s : σ} {r : ρ} (h : body s = .inr r) (n : Nat) :
    loop body (n + 1) s = some r := by
  simp only [loop, h]

theorem loop_succ {body : σ → σ ⊕ ρ} {n : Nat} {s : σ} {r : ρ} (h : loop body n s = some r) :
    loop body (n + 1) s = some r := by
  induction n generalizing s with
  | zero => cases h
  | succ n ih =>
    cases hb : body s with
    | inl s' =>
      rw [loop_continue hb] at h ⊢
      exact ih h
    | inr r' =>
      rw [loop_break hb] at h ⊢
      exact h

theorem loop_mono {body : σ → σ ⊕ ρ} {n m : Nat} (hnm : n ≤ m) {s : σ} {r : ρ}
    (h : loop body n s = some r) : loop body m s = some r := by
  induction hnm with
  | refl => exact h
  | step _ ih => exact loop_succ ih

theorem loop_diverges {body : σ → σ ⊕ ρ} (I : σ → Prop)
    (hI : ∀ s, I s → ∃ s', body s = .inl s' ∧ I s') {s : σ} (hs : I s) (n : Nat) :
    loop body n s = none := by
  induction n generalizing s with
  | zero => rfl
  | succ n ih =>
    obtain ⟨s', hb, hs'⟩ := hI s hs
    rw [loop_continue hb, ih hs']

/-- A loop whose rounds either return `true` or go on finds a hit if there is one. -/
theorem forIn_search {α : Type} (xs : List α) (hit : α → Bool)
    (body : α → Option Bool × Unit → Id (ForInStep (Option Bool × Unit)))
    (h : ∀ a ∈ xs, ∀ s, body a s = if hit a then .done (some true, ()) else .yield (none, ())) :
    (forIn xs (none, ()) body : Id (Option Bool × Unit)) =
      (if xs.any hit then some true else none, ()) := by
  induction xs with
  | nil => rfl
  | cons a as ih =>
    rw [List.forIn_cons, h a (by simp)]
    cases ha : hit a with
    | true =>
      rw [List.any_cons, ha]
      rfl
    | false =>
      rw [List.any_cons, ha, Bool.false_or]
      exact ih fun b hb => h b (List.mem_cons_of_mem _ hb)

end FileEngine.Go
