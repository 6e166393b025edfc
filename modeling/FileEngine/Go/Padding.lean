import FileEngine.Go.Location

/-!
# White space at the ends of a path

A path whose white space is trimmed need not denote what it denoted before: the first
and the last component can be other names afterwards. For a path with a separator,
`locate_trimSpace_iff` says when it denotes the same. At its end there must be no white
space. At its front there may be some if the path comes back to the root, which takes
the first component away in both spellings.
-/

namespace FileEngine.Go

/-- An initial part of the components leads to the root. -/
def ComesBack (cs : List Str) : Prop := ∃ k, k ≠ [] ∧ k <+: cs ∧ resolve k = []

/-- Two locations that differ in the first name `n`, which the second has not, or has another
one for. -/
def Apart (n : Name) (l k : Loc) : Prop := ∃ m, l = n :: m ∧ (k = m ∨ ∃ x, x ≠ n ∧ k = x :: m)

section

variable {n : Name} {l k : Loc}

theorem Apart.ne (h : Apart n l k) : k ≠ l := by
  obtain ⟨m, rfl, rfl | ⟨x, hx, rfl⟩⟩ := h
  · intro heq
    have := congrArg List.length heq
    simp at this
  · exact fun heq => hx (List.cons.inj heq).1

theorem Apart.length_le (h : Apart n l k) : k.length ≤ l.length := by
  obtain ⟨m, rfl, rfl | ⟨x, _, rfl⟩⟩ := h <;> simp

/-- The first name stays, until one step up takes it away. -/
theorem Apart.enter (h : Apart n l k) (c : Str) :
    (l.enter c = [] ∧ k.enter c = []) ∨ (l.enter c ≠ [] ∧ Apart n (l.enter c) (k.enter c)) := by
  obtain ⟨m, rfl, hk⟩ := h
  by_cases hup : c = dotdot
  · subst hup
    simp only [Loc.enter_dotdot]
    rcases List.eq_nil_or_concat' m with rfl | ⟨m, z, rfl⟩
    · refine Or.inl ⟨rfl, ?_⟩
      rcases hk with rfl | ⟨x, _, rfl⟩ <;> rfl
    · rw [← List.cons_append, List.dropLast_concat]
      refine Or.inr ⟨by simp, m, rfl, ?_⟩
      rcases hk with rfl | ⟨x, hx, rfl⟩
      · exact Or.inl List.dropLast_concat
      · exact Or.inr ⟨x, hx, by rw [← List.cons_append, List.dropLast_concat]⟩
  · have hdown : ∀ l : Loc, l.enter c = l ++ Loc.enter [] c := by
      intro l
      unfold Loc.enter
      rw [if_neg hup, if_neg hup]
      split <;> simp
    rw [hdown, hdown k]
    refine Or.inr ⟨by simp, m ++ Loc.enter [] c, rfl, ?_⟩
    rcases hk with rfl | ⟨x, hx, rfl⟩
    · exact Or.inl rfl
    · exact Or.inr ⟨x, hx, rfl⟩

end

theorem apart_first {n : Name} {y : Str} (h : y ≠ n.val) : Apart n [n] (Loc.enter [] y) := by
  refine ⟨[], rfl, ?_⟩
  unfold Loc.enter
  split_ifs with hup hname
  · exact Or.inl rfl
  · exact Or.inr ⟨⟨y, hname⟩, fun heq => h (congrArg Name.val heq), rfl⟩
  · exact Or.inl rfl

/-- Another first component than the name `n` is forgotten exactly if the path comes back. -/
theorem resolve_first {n : Name} {y : Str} (h : y ≠ n.val) (cs : List Str) :
    (ComesBack (n.val :: cs) ∧ resolve (y :: cs) = resolve (n.val :: cs)) ∨
      (¬ ComesBack (n.val :: cs) ∧ Apart n (resolve (n.val :: cs)) (resolve (y :: cs))) := by
  induction cs using List.reverseRecOn with
  | nil =>
    have hone : resolve [n.val] = [n] := resolve_names [n]
    refine Or.inr ⟨?_, by rw [hone]; exact apart_first h⟩
    rintro ⟨k, hk, hpre, hroot⟩
    have hall : k = [n.val] :=
      hpre.eq_of_length_le (List.length_pos_iff.mpr hk)
    rw [hall, hone] at hroot
    cases hroot
  | append_singleton cs c ih =>
    simp only [← List.cons_append, resolve_concat]
    rcases ih with ⟨⟨k, hk, hpre, hroot⟩, heq⟩ | ⟨hnot, hapart⟩
    · refine Or.inl ⟨⟨k, hk, hpre.trans (List.prefix_append _ _), hroot⟩, ?_⟩
      rw [heq]
    · rcases hapart.enter c with ⟨hroot, hroot'⟩ | ⟨hne, hapart'⟩
      · refine Or.inl ⟨⟨n.val :: cs ++ [c], by simp, List.prefix_rfl, ?_⟩, by rw [hroot, hroot']⟩
        rw [resolve_concat, hroot]
      · refine Or.inr ⟨?_, hapart'⟩
        rintro ⟨k, hk, hpre, hroot⟩
        rcases List.prefix_concat_iff.mp hpre with rfl | hpre
        · rw [resolve_concat] at hroot
          exact hne hroot
        · exact hnot ⟨k, hk, hpre, hroot⟩

/-! ## Trimming -/

/-- A component with white space in it is a name. -/
theorem isName_of_space {c w : Str} (hslash : slash ∉ c) (hw : w ∈ spaceRunes) (h : w <:+: c) :
    IsName c := by
  have hdots : ∀ w ∈ spaceRunes, ∃ b ∈ w, b ≠ 46 := by decide
  obtain ⟨b, hb, hne⟩ := hdots w hw
  have hbc : b ∈ c := h.subset hb
  refine ⟨List.ne_nil_of_mem hbc, ?_, ?_, hslash⟩
  · rintro rfl
    simp [dot, hne] at hbc
  · rintro rfl
    simp [dotdot, hne] at hbc

/-- What is trimmed from a path with a separator is white space at the front of the first and
at the end of the last component. -/
theorem comps_trimSpace {p : Str} (h : slash ∈ p) :
    ∃ pre x cs c suf, comps p = (pre ++ x) :: (cs ++ [c ++ suf]) ∧
      comps (trimSpace p) = x :: (cs ++ [c]) ∧
      ((pre = [] ∧ ∀ w ∈ spaceRunes, ¬ w <+: p) ∨ ∃ w ∈ spaceRunes, w <+: pre ∧ w <+: p) ∧
      ((suf = [] ∧ ∀ w ∈ spaceRunes, ¬ w <:+ p) ∨ ∃ w ∈ spaceRunes, w <:+ suf ∧ w <:+ p) := by
  obtain ⟨l, hl, hleft, hfront⟩ := trimLeft_spec spaceRunes_ne_nil p
  obtain ⟨r, hr, hright, hend⟩ := trimRight_spec spaceRunes_ne_nil (trimLeft spaceRunes p)
  have hp : p = l.flatten ++ (trimSpace p ++ r.flatten) := hleft.trans (by rw [hright]; rfl)
  have hpre := slash_not_mem_flatten hl
  have hsuf := slash_not_mem_flatten hr
  have hmem : slash ∈ trimSpace p := by
    rw [hp] at h
    simpa [hpre, hsuf] using h
  rcases exists_first_comp (trimSpace p) with ⟨hnot, _⟩ | ⟨x, b, hq, hx, hcomps⟩
  · exact absurd hmem hnot
  · obtain ⟨cs, c, hb⟩ := exists_comps_concat b
    refine ⟨l.flatten, x, cs, c, r.flatten, ?_, by rw [hcomps, hb], ?_, ?_⟩
    · have hfirst : slash ∉ l.flatten ++ x := by simp [hpre, hx]
      have hsplit : p = (l.flatten ++ x) ++ slash :: (b ++ r.flatten) := by
        rw [hp, hq]
        simp
      rw [hsplit, comps_append_slash, comps_of_not_mem hfirst, comps_append_plain hb hsuf]
      rfl
    · cases l with
      | nil => exact Or.inl ⟨rfl, by rwa [← show p = trimLeft spaceRunes p from hleft] at hfront⟩
      | cons w l =>
        have hw : w <+: (w :: l).flatten := List.prefix_append _ _
        exact Or.inr ⟨w, hl w (by simp), hw, hw.trans ⟨_, hp.symm⟩⟩
    · rcases List.eq_nil_or_concat' r with rfl | ⟨r, w, rfl⟩
      · refine Or.inl ⟨rfl, fun w hw hwp => ?_⟩
        have hqp : trimSpace p <:+ p := ⟨l.flatten, by simpa using hp.symm⟩
        rcases List.suffix_or_suffix_of_suffix hwp hqp with hwq | hqw
        · exact hend w hw hwq
        · exact slash_not_mem_spaceRunes w hw (hqw.subset hmem)
      · have hw : w <:+ (r ++ [w]).flatten := by simp
        refine Or.inr ⟨w, hr w (by simp), hw, hw.trans ?_⟩
        exact ⟨_, by rw [List.append_assoc]; exact hp.symm⟩

/-- White space in front of the first component makes a difference, and leads at least as
deep, unless the path comes back. -/
theorem resolve_padded {pre x : Str} (hslash : slash ∉ pre ++ x) {w : Str} (hw : w ∈ spaceRunes)
    (hpre : w <+: pre) (cs : List Str) :
    (ComesBack ((pre ++ x) :: cs) ∧ resolve (x :: cs) = resolve ((pre ++ x) :: cs)) ∨
      (¬ ComesBack ((pre ++ x) :: cs) ∧ resolve (x :: cs) ≠ resolve ((pre ++ x) :: cs) ∧
        (resolve (x :: cs)).length ≤ (resolve ((pre ++ x) :: cs)).length) := by
  have hname := isName_of_space hslash hw (hpre.trans (List.prefix_append _ _)).isInfix
  have hne : x ≠ pre ++ x := by
    intro heq
    have hlen := congrArg List.length heq
    have hw' := List.length_pos_iff.mpr (spaceRunes_ne_nil w hw)
    have hle := hpre.length_le
    rw [List.length_append] at hlen
    omega
  exact (resolve_first (n := ⟨pre ++ x, hname⟩) hne cs).imp_right fun ⟨hnot, hapart⟩ =>
    ⟨hnot, hapart.ne, hapart.length_le⟩

/-- **Trimmed paths.** A path with a separator denotes the same without the white space at its
ends exactly if there is none at its end, and none at its front or it comes back to the
root. -/
theorem locate_trimSpace_iff {p : Str} (h : slash ∈ p) :
    locate (trimSpace p) = locate p ↔
      (∀ w ∈ spaceRunes, ¬ w <:+ p) ∧
        ((∀ w ∈ spaceRunes, ¬ w <+: p) ∨ ComesBack (comps p)) := by
  obtain ⟨pre, x, cs, c, suf, hp, hq, hpre, hsuf⟩ := comps_trimSpace h
  have hfree : ∀ d ∈ (pre ++ x) :: (cs ++ [c ++ suf]), slash ∉ d := by
    rw [← hp]
    exact fun d => slash_not_mem_of_mem_comps
  rw [locate, locate, hq, hp]
  rcases hsuf with ⟨rfl, hend⟩ | ⟨w, hw, hwsuf, hwp⟩
  · rw [List.append_nil]
    rcases hpre with ⟨rfl, hfront⟩ | ⟨w, hw, hwpre, hwp⟩
    · exact iff_of_true rfl ⟨hend, Or.inl hfront⟩
    · rcases resolve_padded (hfree (pre ++ x) List.mem_cons_self) hw hwpre (cs ++ [c]) with
        ⟨hback, heq⟩ | ⟨hnot, hne, _⟩
      · exact iff_of_true heq ⟨hend, Or.inr hback⟩
      · exact iff_of_false hne fun hcond => hcond.2.elim (fun hfront => hfront w hw hwp) hnot
  · -- the last component is a name, and another one than before
    refine iff_of_false (fun heq => ?_) fun hcond => hcond.1 w hw hwp
    have hname := isName_of_space (hfree _ (by simp)) hw
      (hwsuf.trans (List.suffix_append c suf)).isInfix
    have hdeep : (resolve (x :: cs)).length ≤ (resolve ((pre ++ x) :: cs)).length := by
      rcases hpre with ⟨rfl, _⟩ | ⟨w, hw, hwpre, _⟩
      · exact le_rfl
      · rcases resolve_padded (hfree (pre ++ x) List.mem_cons_self) hw hwpre cs with
          ⟨_, heq⟩ | ⟨_, _, hle⟩
        · rw [heq]
        · exact hle
    rw [← List.cons_append, ← List.cons_append, resolve_concat, resolve_concat_name _ hname] at heq
    have hlen := congrArg List.length heq
    unfold Loc.enter at heq hlen
    split_ifs at heq hlen with hup hdown
    · simp at hlen
      omega
    · have hlast := congrArg Name.val (List.cons.inj (List.append_inj' heq rfl).2).1
      have hnil : suf = [] := by simpa using hlast
      rw [hnil] at hwsuf
      exact spaceRunes_ne_nil w hw (List.suffix_nil.mp hwsuf)
    · simp at hlen
      omega

end FileEngine.Go
