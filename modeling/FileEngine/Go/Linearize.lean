import FileEngine.Go.Interleave

/-!
# Taking effect one after the other

The programs of a pool keep a protocol with a commit point, and from outside one sees some values
of the state, at the keys that are `Visible`. A quiet call changes none of them; a program that
commits changes them as `apply` says. Then every schedule comes with an order in which programs
have taken effect, each of them once and in a turn of its own, and at every moment of the schedule
the visible values are those that this order has made up to then (`run_linearizes`).
-/

namespace FileEngine.Go

section

theorem take_concat_of_lt {β : Type} {xs : List β} {x : β} {m : Nat} (h : xs.length < m) :
    (xs ++ [x]).take m = xs ++ [x] := by
  apply List.take_of_length_le
  rw [List.length_append, List.length_singleton]
  omega

variable {M : Machine} {ι α κ ν : Type}

/-- What becomes of the value at a key when the programs of `order` take effect, as far as their
turns are before the turn `m`. -/
def applied (apply : ι → κ → ν → ν) (order : List (ι × Nat)) (m : Nat) (k : κ) (v : ν) : ν :=
  (order.filter fun c => decide (c.2 < m)).foldl (fun v c => apply c.1 k v) v

variable {apply : ι → κ → ν → ν} {order : List (ι × Nat)} {m : Nat}

theorem applied_of_forall_lt (h : ∀ c ∈ order, c.2 < m) (k : κ) (v : ν) :
    applied apply order m k v = order.foldl (fun v c => apply c.1 k v) v := by
  unfold applied
  rw [List.filter_eq_self.mpr fun c hc => decide_eq_true (h c hc)]

theorem applied_concat_of_le {i : ι} {n : Nat} (h : m ≤ n) (k : κ) (v : ν) :
    applied apply (order ++ [(i, n)]) m k v = applied apply order m k v := by
  unfold applied
  rw [List.filter_append, List.filter_cons_of_neg (by simpa using h), List.filter_nil,
    List.append_nil]

variable [DecidableEq ι]

/-- The programs of `order`, each with the number of a turn, take effect one after the other. -/
structure Linearized (apply : ι → κ → ν → ν) (view : M.State → κ → ν) (Visible : κ → Prop)
    (p : Pool M ι α) (sched : List (ι × M.Choice)) (order : List (ι × Nat)) : Prop where
  turns : ∀ c ∈ order, ∃ choice, sched[c.2]? = some (c.1, choice)
  sorted : order.Pairwise fun c c' => c.2 < c'.2
  once : (order.map Prod.fst).Nodup
  views : ∀ m ≤ sched.length, ∀ k, Visible k →
    view (p.run (sched.take m)).state k = applied apply order m k (view p.state k)

variable {view : M.State → κ → ν} {Visible : κ → Prop} {p : Pool M ι α}
  {sched : List (ι × M.Choice)} {i : ι} {choice : M.Choice}

theorem Linearized.lt_length (h : Linearized apply view Visible p sched order) {c : ι × Nat}
    (hc : c ∈ order) : c.2 < sched.length := by
  obtain ⟨_, hturn⟩ := h.turns c hc
  exact (List.getElem?_eq_some_iff.mp hturn).1

theorem linearized_nil : Linearized apply view Visible p [] [] where
  turns c hc := absurd hc List.not_mem_nil
  sorted := List.Pairwise.nil
  once := List.nodup_nil
  views m hm k _ := by
    rw [List.take_nil]
    rfl

theorem Linearized.turns_concat (h : Linearized apply view Visible p sched order) {c : ι × Nat}
    (hc : c ∈ order) : ∃ choice', (sched ++ [(i, choice)])[c.2]? = some (c.1, choice') := by
  obtain ⟨choice', hturn⟩ := h.turns c hc
  refine ⟨choice', ?_⟩
  rw [List.getElem?_append_left (h.lt_length hc)]
  exact hturn

/-- Before the new turn nothing is different. -/
theorem Linearized.views_before (h : Linearized apply view Visible p sched order)
    (hm : m ≤ sched.length) {k : κ} (hk : Visible k) :
    view (p.run ((sched ++ [(i, choice)]).take m)).state k =
      applied apply order m k (view p.state k) := by
  rw [List.take_append_of_le_length hm]
  exact h.views m hm k hk

theorem Linearized.view_run (h : Linearized apply view Visible p sched order) {k : κ}
    (hk : Visible k) : view (p.run sched).state k =
      order.foldl (fun v c => apply c.1 k v) (view p.state k) := by
  have hall := h.views sched.length le_rfl k hk
  rw [List.take_length] at hall
  rw [hall, applied_of_forall_lt fun c hc => h.lt_length hc]

/-- A quiet turn. -/
theorem Linearized.quiet (h : Linearized apply view Visible p sched order)
    (hsame : ∀ k, Visible k →
      view (p.run (sched ++ [(i, choice)])).state k = view (p.run sched).state k) :
    Linearized apply view Visible p (sched ++ [(i, choice)]) order := by
  refine ⟨fun c hc => h.turns_concat hc, h.sorted, h.once, fun m hm k hk => ?_⟩
  rcases Nat.lt_or_ge sched.length m with hlast | hbefore
  · rw [take_concat_of_lt hlast, hsame k hk, h.view_run hk,
      applied_of_forall_lt fun c hc => (h.lt_length hc).trans hlast]
  · exact h.views_before hbefore hk

/-- A turn in which `i` takes effect. -/
theorem Linearized.commit (h : Linearized apply view Visible p sched order)
    (hnew : i ∉ order.map Prod.fst)
    (happly : ∀ k, Visible k →
      view (p.run (sched ++ [(i, choice)])).state k = apply i k (view (p.run sched).state k)) :
    Linearized apply view Visible p (sched ++ [(i, choice)]) (order ++ [(i, sched.length)]) := by
  refine ⟨fun c hc => ?_, ?_, ?_, fun m hm k hk => ?_⟩
  · rcases List.mem_append.mp hc with hc | hc
    · exact h.turns_concat hc
    · obtain rfl := List.mem_singleton.mp hc
      exact ⟨choice, List.getElem?_concat_length⟩
  · refine List.pairwise_append.mpr ⟨h.sorted, List.pairwise_singleton _ _, fun c hc c' hc' => ?_⟩
    rw [List.mem_singleton.mp hc']
    exact h.lt_length hc
  · rw [List.map_append, List.map_singleton, List.nodup_append]
    refine ⟨h.once, List.pairwise_singleton _ _, fun j hj j' hj' => ?_⟩
    rintro rfl
    rw [List.mem_singleton.mp hj'] at hj
    exact hnew hj
  · rcases Nat.lt_or_ge sched.length m with hlast | hbefore
    · have hall : ∀ c ∈ order ++ [(i, sched.length)], c.2 < m := by
        intro c hc
        rcases List.mem_append.mp hc with hc | hc
        · exact (h.lt_length hc).trans hlast
        · rw [List.mem_singleton.mp hc]
          exact hlast
      rw [take_concat_of_lt hlast, happly k hk, h.view_run hk, applied_of_forall_lt hall,
        List.foldl_append]
      rfl
    · rw [applied_concat_of_le hbefore]
      exact h.views_before hbefore hk

end

namespace Protocol

variable {M : Machine} {ι Γ α κ ν : Type} [DecidableEq ι] {P : Protocol M ι Γ}
  {A : ι → M.State → M.Effect → Prop} {Q : ι → α → Γ → Prop} {done : Γ → Prop}
  {Quiet Commits : ι → M.State → M.State → Prop} {p : Pool M ι α} {sched : List (ι × M.Choice)}

/-- **Programs with a commit point take effect one after the other.** -/
theorem run_linearizes (hP : P.CommitPoint done Quiet Commits) {γ₀ : ι → Γ}
    (h₀ : P.Holds A Q γ₀ p) (hstart : ∀ i, ¬ done (γ₀ i)) (hA : p.Allowed A sched)
    (apply : ι → κ → ν → ν) (view : M.State → κ → ν) (Visible : κ → Prop)
    (hquiet : ∀ i s s', Quiet i s s' → ∀ k, Visible k → view s' k = view s k)
    (hcommit : ∀ i s s', Commits i s s' → ∀ k, Visible k → view s' k = apply i k (view s k)) :
    ∃ γ order, Linearized apply view Visible p sched order ∧
      (∀ i, i ∈ order.map Prod.fst ↔ done (γ i)) ∧
      (∀ i ∈ order.map Prod.fst, ∃ s s', Commits i s s') ∧ P.Holds A Q γ (p.run sched) := by
  obtain ⟨γ, ⟨order, hlin, hdone, hlegal⟩, hholds⟩ := run_induction h₀
    (fun before γ => ∃ order, Linearized apply view Visible p before order ∧
      (∀ i, i ∈ order.map Prod.fst ↔ done (γ i)) ∧
      ∀ i ∈ order.map Prod.fst, ∃ s s', Commits i s s')
    ⟨[], linearized_nil, fun i => iff_of_false List.not_mem_nil (hstart i),
      fun i hi => absurd hi List.not_mem_nil⟩ hA
    (fun before i choice γ g' _ ⟨order, hlin, hdone, hlegal⟩ hinv hguar => by
      have hiff : ∀ j, done (Function.update γ i g' j) ↔
          (j = i ∧ done g') ∨ (j ≠ i ∧ done (γ j)) := by
        intro j
        by_cases hj : j = i
        · subst hj
          simp
        · simp [hj]
      by_cases hnow : done g' → done (γ i)
      · refine ⟨order, hlin.quiet (hquiet i _ _ (hP.quiet γ _ i g' _ hinv hguar hnow)), ?_, hlegal⟩
        intro j
        rw [hiff, hdone]
        by_cases hj : j = i
        · subst hj
          simpa using ⟨hP.keeps j _ _ g' _ hguar, hnow⟩
        · simp [hj]
      · obtain ⟨hg', hg⟩ := Classical.not_imp.mp hnow
        have hnew : i ∉ order.map Prod.fst := fun hi => hg ((hdone i).mp hi)
        have hcommits := hP.commit γ _ i g' _ hinv hguar hg hg'
        refine ⟨_, hlin.commit hnew (hcommit i _ _ hcommits), fun j => ?_, fun j hj => ?_⟩
        · rw [hiff, List.map_append, List.mem_append, hdone]
          by_cases hj : j = i
          · subst hj
            simp [hg']
          · simp [hj]
        · rw [List.map_append, List.mem_append] at hj
          rcases hj with hj | hj
          · exact hlegal j hj
          · obtain rfl := List.mem_singleton.mp hj
            exact ⟨_, _, hcommits⟩)
  exact ⟨γ, order, hlin, hdone, hlegal, hholds⟩

end Protocol

end FileEngine.Go
