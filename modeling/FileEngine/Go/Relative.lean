import FileEngine.Go.Filepath

/-!
# Relative paths

`Loc.follow l p` is where the path `p` leads from the location `l`. It goes up first and
then down: by as many names as `clean p` has `..` at its front (`ups p`), and then along
`locate p` (`follow_eq`). It ends at `l` or beneath it exactly when it comes down again
through the names that it went up over (`prefix_follow_iff`).

`Loc.reroot b p` reads an absolute path from `b` and a relative one from `b` as well, but
only the first cannot climb above `b`. `join_stripped` says that joining a cleaned path
without its leading separator to a base leads there.

`rel_admits` says when the result of `Rel` does not begin with two dots: the target has to
be at the base or beneath it, and its first name there must not begin with two dots.
-/

namespace FileEngine.Go

/-! ## Up and down -/

/-- Where the path leads from a location. -/
def Loc.follow (l : Loc) (p : Str) : Loc := (comps p).foldl Loc.enter l

/-- How many names the path goes up before it comes down. -/
def ups (p : Str) : Nat := ((cleanComps false (comps p)).takeWhile (· = dotdot)).length

theorem follow_append_slash (l : Loc) (p q : Str) :
    l.follow (p ++ slash :: q) = (l.follow p).follow q := by
  rw [Loc.follow, comps_append_slash, List.foldl_append]
  rfl

theorem locate_append_follow (p q : Str) : locate (p ++ slash :: q) = (locate p).follow q :=
  follow_append_slash [] p q

theorem foldl_enter_cleanStep {st : List Str} (h : ∀ d ∈ st, Kept d) {c : Str}
    (hc : slash ∉ c) (l : Loc) :
    (cleanStep false st c).foldl Loc.enter l = (st.foldl Loc.enter l).enter c := by
  by_cases hskip : c = [] ∨ c = dot
  · rcases hskip with rfl | rfl <;> simp [cleanStep]
  · obtain ⟨hnil, hdot⟩ := not_or.mp hskip
    by_cases hdd : c = dotdot
    · subst hdd
      rcases List.eq_nil_or_concat' st with rfl | ⟨k, top, rfl⟩
      · simp [cleanStep, hskip]
      · by_cases htop : top = dotdot
        · simp [cleanStep, hskip, htop]
        · -- a name that is entered and left again
          obtain ⟨htop₁, htop₂, htop₃⟩ := h top (by simp)
          have henter := Loc.enter_name (k.foldl Loc.enter l) ⟨top, htop₁, htop₂, htop, htop₃⟩
          simp only at henter
          simp [cleanStep, hskip, htop, henter]
    · simp [cleanStep, hskip, hdd]

/-- Cleaning the components does not change where they lead. -/
theorem foldl_enter_cleanComps {cs : List Str} (h : ∀ c ∈ cs, slash ∉ c) (l : Loc) :
    (cleanComps false cs).foldl Loc.enter l = cs.foldl Loc.enter l := by
  induction cs using List.reverseRecOn with
  | nil => rfl
  | append_singleton cs c ih =>
    have hcs : ∀ d ∈ cs, slash ∉ d := fun d hd => h d (List.mem_append_left _ hd)
    have hstep : cleanComps false (cs ++ [c]) = cleanStep false (cleanComps false cs) c := by
      rw [cleanComps, List.foldl_append]
      rfl
    rw [hstep, foldl_enter_cleanStep (kept_cleanComps false hcs) (h c (by simp)), ih hcs,
      List.foldl_append]
    rfl

theorem cleanComps_false (p : Str) :
    cleanComps false (comps p) = List.replicate (ups p) dotdot ++ (locate p).map Name.val := by
  have hslash : ∀ c ∈ comps p, slash ∉ c := fun _ hc => slash_not_mem_of_mem_comps hc
  obtain ⟨n, hn⟩ := exists_cleanComps false hslash
  have hups : ups p = n := by
    have hrep : (List.replicate n dotdot).takeWhile (· = dotdot) = List.replicate n dotdot :=
      List.takeWhile_eq_self_iff.mpr fun c hc => decide_eq_true (List.eq_of_mem_replicate hc)
    have hnames : ((resolve (comps p)).map Name.val).takeWhile (· = dotdot) = [] := by
      cases resolve (comps p) with
      | nil => rfl
      | cons m k => simp [m.isName.2.2.1]
    rw [ups, hn, List.takeWhile_append, hrep, hnames]
    simp
  rw [hups, hn]
  rfl

theorem foldl_enter_dotdots (n : Nat) (l : Loc) :
    (List.replicate n dotdot).foldl Loc.enter l = l.take (l.length - n) := by
  induction n with
  | zero => simp
  | succ n ih =>
    rw [List.replicate_succ', List.foldl_append, ih]
    simp only [List.foldl_cons, List.foldl_nil, Loc.enter_dotdot]
    rw [List.dropLast_eq_take, List.length_take, List.take_take]
    congr 1
    omega

/-- A path leads up and then down. -/
theorem follow_eq (l : Loc) (p : Str) : l.follow p = l.take (l.length - ups p) ++ locate p := by
  rw [Loc.follow, ← foldl_enter_cleanComps fun _ hc => slash_not_mem_of_mem_comps hc,
    cleanComps_false, List.foldl_append, foldl_enter_dotdots, foldl_enter_names]

/-! ## Coming back -/

/-- Strictly beneath. -/
def Loc.Beneath (l k : Loc) : Prop := l <+: k ∧ l ≠ k

instance (l k : Loc) : Decidable (l.Beneath k) := inferInstanceAs (Decidable (_ ∧ _))

/-- The path comes down through the names that it went up over. -/
def Loc.Returns (l : Loc) (p : Str) : Prop := l.drop (l.length - ups p) <+: locate p

/-- The same, and it goes on from there. -/
def Loc.Descends (l : Loc) (p : Str) : Prop := Loc.Beneath (l.drop (l.length - ups p)) (locate p)

instance (l : Loc) (p : Str) : Decidable (l.Returns p) :=
  inferInstanceAs (Decidable (_ <+: _))

instance (l : Loc) (p : Str) : Decidable (l.Descends p) :=
  inferInstanceAs (Decidable (Loc.Beneath _ _))

theorem prefix_follow_iff (l : Loc) (p : Str) : l <+: l.follow p ↔ l.Returns p := by
  have hsplit : l.take (l.length - ups p) ++ l.drop (l.length - ups p) <+:
      l.take (l.length - ups p) ++ locate p ↔ l.Returns p := List.prefix_append_right_inj _
  rw [List.take_append_drop] at hsplit
  rw [follow_eq, hsplit]

theorem beneath_follow_iff (l : Loc) (p : Str) : l.Beneath (l.follow p) ↔ l.Descends p := by
  have hsplit : l = l.follow p ↔ l.drop (l.length - ups p) = locate p := by
    have hinj : l.take (l.length - ups p) ++ l.drop (l.length - ups p) =
        l.take (l.length - ups p) ++ locate p ↔ l.drop (l.length - ups p) = locate p :=
      List.append_right_inj _
    rw [List.take_append_drop] at hinj
    rw [follow_eq, hinj]
  unfold Loc.Beneath Loc.Descends
  rw [prefix_follow_iff, Ne, hsplit]
  rfl

theorem append_beneath_iff (b l k : Loc) : (b ++ l).Beneath (b ++ k) ↔ l.Beneath k := by
  unfold Loc.Beneath
  rw [List.prefix_append_right_inj, Ne, List.append_right_inj]

theorem follow_eq_self_iff {l : Loc} {p : Str} :
    l.follow p = l ++ locate p ↔ ups p = 0 ∨ l = [] := by
  rw [follow_eq, List.append_left_inj]
  constructor
  · intro h
    have hlen := congrArg List.length h
    rw [List.length_take] at hlen
    by_cases hl : l = []
    · exact Or.inr hl
    · have := List.length_pos_iff.mpr hl
      exact Or.inl (by omega)
  · rintro (h | rfl)
    · simp [h]
    · simp

/-! ## `Join` -/

theorem isAbs_clean (p : Str) : isAbs (clean p) = isAbs p := by
  rw [clean]
  exact isAbs_spell _ (kept_cleanComps _ fun _ hc => slash_not_mem_of_mem_comps hc)

/-- Cleaning a relative path does not change where it leads. -/
theorem follow_clean {p : Str} (h : isAbs p = false) (l : Loc) :
    l.follow (clean p) = l.follow p := by
  have hkept : ∀ q, ∀ d ∈ cleanComps false (comps q), Kept d :=
    fun q => kept_cleanComps false fun _ hc => slash_not_mem_of_mem_comps hc
  have hcomps : cleanComps false (comps (clean p)) = cleanComps false (comps p) := by
    have hclean : ∀ q, isAbs q = false → clean q = spell false (cleanComps false (comps q)) := by
      intro q hq
      rw [clean, hq]
    have hspell := clean_clean p
    rw [hclean _ ((isAbs_clean p).trans h)] at hspell
    have hboth := congrArg pathComps (hspell.trans (hclean p h))
    rwa [pathComps_spell false (hkept _), pathComps_spell false (hkept _)] at hboth
  rw [Loc.follow, ← foldl_enter_cleanComps fun _ hc => slash_not_mem_of_mem_comps hc, hcomps,
    foldl_enter_cleanComps fun _ hc => slash_not_mem_of_mem_comps hc]
  rfl

theorem join_abs {base : Str} (h : isAbs base = true) (p : Str) :
    join [base, p] = ((locate base).follow p).path := by
  have hne : base ≠ [] := by
    rintro rfl
    cases h
  have hjoin : join [base, p] = clean (base ++ slash :: p) := by
    simp [join, hne, List.intercalate_cons_cons]
  have habs : isAbs (base ++ slash :: p) = true := by
    obtain ⟨t, rfl⟩ := isAbs_iff.mp h
    rfl
  rw [hjoin, clean_rooted habs, locate_append_follow]

/-- Where a path leads beneath `b`, if an absolute path is read from `b` too. -/
def Loc.reroot (b : Loc) (p : Str) : Loc := if isAbs p then b ++ locate p else b.follow p

/-- Read from `b`, the path leads to `b` or beneath it. -/
def Loc.Keeps (b : Loc) (p : Str) : Prop := isAbs p = true ∨ b.Returns p

/-- Read from `b`, the path leads strictly beneath `b`. -/
def Loc.Enters (b : Loc) (p : Str) : Prop := if isAbs p then locate p ≠ [] else b.Descends p

instance (b : Loc) (p : Str) : Decidable (b.Keeps p) := inferInstanceAs (Decidable (_ ∨ _))

instance (b : Loc) (p : Str) : Decidable (b.Enters p) :=
  inferInstanceAs (Decidable (if isAbs p = true then locate p ≠ [] else b.Descends p))

theorem prefix_reroot_iff (b : Loc) (p : Str) : b <+: b.reroot p ↔ b.Keeps p := by
  unfold Loc.reroot Loc.Keeps
  by_cases h : isAbs p = true
  · simp [h]
  · simp [h, prefix_follow_iff]

theorem beneath_reroot_iff (b : Loc) (p : Str) : b.Beneath (b.reroot p) ↔ b.Enters p := by
  unfold Loc.reroot Loc.Enters
  by_cases h : isAbs p = true
  · simp [h, Loc.Beneath]
  · simp [h, beneath_follow_iff]

/-- The directory of a path is at `b` or beneath it if the path is strictly beneath. -/
theorem prefix_dropLast_iff (b k : Loc) : b <+: k.dropLast ↔ b.Beneath k ∨ b = [] := by
  constructor
  · intro h
    by_cases hb : b = []
    · exact Or.inr hb
    · refine Or.inl ⟨h.trans ( List.dropLast_prefix k), ?_⟩
      rintro rfl
      exact not_prefix_dropLast hb h
  · rintro (⟨⟨k', rfl⟩, hne⟩ | rfl)
    · have hk' : k' ≠ [] := by
        rintro rfl
        simp at hne
      rw [List.dropLast_append_of_ne_nil hk']
      exact List.prefix_append _ _
    · exact List.nil_prefix

/-- The leading separator of a cleaned path is dropped, and the rest joined to the base. -/
theorem join_stripped {base : Str} (h : isAbs base = true) (p : Str) :
    join [base, if isAbs (clean p) then trimPrefix (clean p) [slash] else clean p] =
      ((locate base).reroot p).path := by
  rw [join_abs h, isAbs_clean, Loc.reroot]
  by_cases habs : isAbs p = true
  · rw [if_pos habs, if_pos habs, clean_rooted habs]
    have htrim : trimPrefix (locate p).path [slash] =
        [slash].intercalate ((locate p).map Name.val) := by
      simp [trimPrefix, Loc.path, hasPrefix]
    have hfollow : ∀ k : Loc,
        (locate base).follow ([slash].intercalate (k.map Name.val)) = locate base ++ k := by
      intro k
      by_cases hk : k = []
      · subst hk
        simp [Loc.follow]
      · rw [Loc.follow, comps_intercalate (by simpa using hk) slash_not_mem_val,
          foldl_enter_names]
    rw [htrim, hfollow]
  · rw [if_neg habs, if_neg habs, follow_clean (Bool.eq_false_iff.mpr habs)]

theorem reroot_join (b : Loc) (p : Str) : b.reroot (join [p]) = b.reroot p := by
  by_cases hp : p = []
  · subst hp
    rfl
  · have hjoin : join [p] = clean p := by simp [join, hp]
    rw [hjoin, Loc.reroot, Loc.reroot, isAbs_clean, locate_clean]
    by_cases habs : isAbs p = true
    · rw [if_pos habs, if_pos habs]
    · rw [if_neg habs, if_neg habs, follow_clean (Bool.eq_false_iff.mpr habs)]

theorem isAbs_join (p : Str) (ps : List Str) (h : p ≠ []) : isAbs (join (p :: ps)) = isAbs p := by
  have hjoin : join (p :: ps) = clean ([slash].intercalate (p :: ps)) := by
    simp [join, h]
  obtain ⟨c, t, rfl⟩ := List.exists_cons_of_ne_nil h
  rw [hjoin, isAbs_clean]
  cases ps with
  | nil => simp
  | cons q qs => simp [List.intercalate_cons_cons, isAbs_cons]

/-! ## `Rel` -/

theorem pathComps_path (l : Loc) : pathComps l.path = l.map Name.val := by
  refine pathComps_spell true fun d hd => ?_
  obtain ⟨n, _, rfl⟩ := List.mem_map.mp hd
  exact kept_val n

theorem dotdot_not_mem_names (l : Loc) : dotdot ∉ l.map Name.val := by
  intro hmem
  obtain ⟨n, _, hn⟩ := List.mem_map.mp hmem
  exact n.isName.2.2.1 hn

theorem atOrBeneath_path (b q : Loc) : AtOrBeneath b.path q.path ↔ b <+: q := by
  rw [AtOrBeneath, pathComps_path, pathComps_path, val_prefix_iff, isAbs_path, isAbs_path]
  exact and_iff_right rfl

/-- A cleaned path begins with `..` if it is relative and goes up. -/
theorem head_pathComps_clean (p : Str) :
    (pathComps (clean p)).head? ≠ some dotdot ↔ isAbs p = true ∨ ups p = 0 := by
  have hnames : ((locate p).map Name.val).head? ≠ some dotdot := by
    cases locate p with
    | nil => simp
    | cons n k => simpa using n.isName.2.2.1
  by_cases habs : isAbs p = true
  · rw [clean_rooted habs, pathComps_path]
    exact iff_of_true hnames (Or.inl habs)
  · have hkept := kept_cleanComps false fun c hc => slash_not_mem_of_mem_comps (p := p) (c := c) hc
    rw [clean, Bool.eq_false_iff.mpr habs, pathComps_spell false hkept, cleanComps_false]
    cases ups p with
    | zero => exact iff_of_true hnames (Or.inr rfl)
    | succ n => simp [List.replicate_succ]

/-- The first name of `q` beneath `b` does not begin with two dots. -/
def PlainBeneath (b q : Loc) : Prop :=
  ∀ n ∈ (q.drop b.length).head?, hasPrefix n.val dotdot = false

/-- `Rel` leads to `q` from `b` without two dots at the front. -/
def Admits (b q : Loc) : Prop := b <+: q ∧ PlainBeneath b q

instance (b q : Loc) : Decidable (PlainBeneath b q) :=
  inferInstanceAs (Decidable (∀ n ∈ (q.drop b.length).head?, _))

instance (b q : Loc) : Decidable (Admits b q) := inferInstanceAs (Decidable (_ ∧ _))

theorem admits_append {b k : Loc} :
    Admits b (b ++ k) ↔ ∀ n ∈ k.head?, hasPrefix n.val dotdot = false := by
  simp [Admits, PlainBeneath]

/-- What is above an admitted place, down to the base, is admitted. -/
theorem admits_of_concat {b d : Loc} {n : Name} (h : Admits b (d ++ [n])) :
    d ++ [n] = b ∨ Admits b d := by
  obtain ⟨k, hk⟩ := h.1
  rcases List.eq_nil_or_concat' k with rfl | ⟨k, m, rfl⟩
  · exact Or.inl (by simpa using hk.symm)
  · rw [← hk, admits_append] at h
    rw [← List.append_assoc] at hk
    obtain ⟨rfl, -⟩ := List.append_inj' hk rfl
    refine Or.inr (admits_append.mpr ?_)
    cases k with
    | nil => simp
    | cons m' k => simpa using h

/-- A name beneath an admitted place other than the base. -/
theorem admits_beneath {b d : Loc} (h : Admits b d) (hne : d ≠ b) (m : Name) :
    Admits b (d ++ [m]) := by
  obtain ⟨k, rfl⟩ := h.1
  rw [admits_append] at h
  rw [List.append_assoc, admits_append]
  cases k with
  | nil => exact absurd (List.append_nil b) hne
  | cons m' k => simpa using h

theorem dropCommon_names (b q : Loc) : ∃ c b' q' : Loc, b = c ++ b' ∧ q = c ++ q' ∧
    dropCommon (b.map Name.val) (q.map Name.val) = (b'.map Name.val, q'.map Name.val) ∧
    (b' <+: q' → b' = []) := by
  induction b generalizing q with
  | nil => exact ⟨[], [], q, rfl, rfl, by simp [dropCommon], fun _ => rfl⟩
  | cons n b ih =>
    cases q with
    | nil => exact ⟨[], n :: b, [], rfl, rfl, by simp [dropCommon], by simp⟩
    | cons m q =>
      by_cases hnm : n = m
      · subst hnm
        obtain ⟨c, b', q', hb, hq, hdrop, hpre⟩ := ih q
        refine ⟨n :: c, b', q', by rw [hb]; rfl, by rw [hq]; rfl, ?_, hpre⟩
        simpa [dropCommon] using hdrop
      · refine ⟨[], n :: b, m :: q, rfl, rfl, ?_, ?_⟩
        · have hval : n.val ≠ m.val := fun he => hnm (Name.ext he)
          simp [dropCommon, hval]
        · intro hpre
          exact absurd (List.cons_prefix_cons.mp hpre).1 hnm

/-- A joined list of names begins with two dots if its first name does. -/
theorem hasPrefix_intercalate (n : Name) (k : List Str) :
    hasPrefix ([slash].intercalate (n.val :: k)) dotdot = hasPrefix n.val dotdot := by
  obtain ⟨hnil, hdot, _, _⟩ := n.isName
  match hval : n.val with
  | [] => exact absurd hval hnil
  | [c] =>
    have hc : (46 : UInt8) ≠ c := by
      rintro rfl
      exact hdot hval
    cases k with
    | nil => simp
    | cons d k => simp [List.intercalate_cons_cons, hasPrefix, dotdot, List.isPrefixOf, hc]
  | c :: d :: rest =>
    cases k with
    | nil => simp
    | cons e k => simp [List.intercalate_cons_cons, hasPrefix, dotdot, List.isPrefixOf]

/-- `Rel` between an absolute base and a canonical path. -/
theorem rel_admits {base : Str} (h : isAbs base = true) (q : Loc) :
    ∃ r, rel base q.path = .ok r ∧ (hasPrefix r dotdot = false ↔ Admits (locate base) q) := by
  unfold rel
  rw [clean_rooted h, clean_path]
  dsimp only
  by_cases heq : q.path = (locate base).path
  · refine ⟨dot, by rw [if_pos heq], iff_of_true (by decide) ?_⟩
    rw [path_injective heq]
    exact ⟨List.prefix_rfl, by simp [PlainBeneath]⟩
  · obtain ⟨c, b', q', hb, hq, hdrop, hpre⟩ := dropCommon_names (locate base) q
    have hhead : (b'.map Name.val).head? ≠ some dotdot := by
      intro hhead
      cases b' with
      | nil => simp at hhead
      | cons n b' => exact n.isName.2.2.1 (by simpa using hhead)
    refine ⟨[slash].intercalate ((b'.map Name.val).map (fun _ => dotdot) ++ q'.map Name.val),
      ?_, ?_⟩
    · rw [if_neg heq, if_neg (by simp), pathComps_path, pathComps_path, hdrop]
      simp only [hhead, if_false]
    · rw [hb, hq]
      cases b' with
      | cons n b' =>
        -- the base is left upwards
        refine iff_of_false ?_ fun hadm => ?_
        · have hfirst : ∀ rest, hasPrefix ([slash].intercalate (dotdot :: rest)) dotdot = true := by
            intro rest
            cases rest with
            | nil => decide
            | cons d k => simp [List.intercalate_cons_cons, hasPrefix, dotdot, List.isPrefixOf]
          rw [List.map_cons, List.map_cons, List.cons_append, hfirst]
          decide
        · have hnil := hpre ((List.prefix_append_right_inj c).mp hadm.1)
          cases hnil
      | nil =>
        rw [List.append_nil, admits_append]
        cases q' with
        | nil =>
          refine absurd ?_ heq
          rw [hb, hq]
        | cons n q' =>
          rw [List.map_nil, List.map_nil, List.nil_append, List.map_cons, hasPrefix_intercalate]
          simp

end FileEngine.Go
