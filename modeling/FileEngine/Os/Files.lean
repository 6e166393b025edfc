import FileEngine.Os.Calls

/-!
# What the calls do to files

`Os.Within` bounds where calls act. Here are the facts about single files that the
storage operations rest on: `MkdirAll` leaves all files alone (`AddsDirs`), writing at
the end of a file appends, and a file that is moved over another file or to a free
place takes its content with it.
-/

namespace FileEngine.Os

open Go

/-- The same node with the same content. -/
def SameAt (l : Loc) (t t' : FS) : Prop :=
  t'.node l = t.node l ∧ ∀ i, t.node l = some (.file i) → t'.data i = t.data i

/-- Everything is as before, up to new directories on the way to `way`. -/
def AddsDirs (way : Loc) (t t' : FS) : Prop :=
  ∀ l, SameAt l t t' ∨ (l <+: way ∧ t.node l = none ∧ t'.node l = some .dir)

section

variable {way l : Loc} {t t' t'' : FS}

theorem SameAt.refl (l : Loc) (t : FS) : SameAt l t t := ⟨rfl, fun _ _ => rfl⟩

theorem SameAt.trans (h : SameAt l t t') (h' : SameAt l t' t'') : SameAt l t t'' :=
  ⟨h'.1.trans h.1, fun i hi => (h'.2 i (h.1.trans hi)).trans (h.2 i hi)⟩

theorem SameAt.look (h : SameAt l t t') : t'.look l = t.look l := FS.look_of_node h.1 h.2

theorem AddsDirs.refl (t : FS) : AddsDirs way t t := fun l => Or.inl (.refl l t)

theorem AddsDirs.trans (h : AddsDirs way t t') (h' : AddsDirs way t' t'') :
    AddsDirs way t t'' := by
  intro l
  rcases h l with hsame | ⟨hway, hnone, hdir⟩
  · rcases h' l with hsame' | ⟨hway', hnone', hdir'⟩
    · exact Or.inl (hsame.trans hsame')
    · exact Or.inr ⟨hway', hsame.1 ▸ hnone', hdir'⟩
  · rcases h' l with hsame' | ⟨_, hnone', _⟩
    · exact Or.inr ⟨hway, hnone, hsame'.1.trans hdir⟩
    · rw [hdir] at hnone'
      cases hnone'

/-- A file stays where it is, with its inode and its content. -/
theorem AddsDirs.file (h : AddsDirs way t t') {i : Nat} (hl : t.node l = some (.file i)) :
    t'.node l = some (.file i) ∧ t'.data i = t.data i := by
  rcases h l with ⟨hnode, hdata⟩ | ⟨_, hnone, _⟩
  · exact ⟨hnode.trans hl, hdata i hl⟩
  · rw [hl] at hnone
    cases hnone

theorem AddsDirs.look (h : AddsDirs way t t') (l : Loc) :
    t'.look l = t.look l ∨ (l <+: way ∧ t.look l = none ∧ t'.look l = some .dir) := by
  exact (h l).imp SameAt.look fun ⟨hway, hnone, hdir⟩ =>
    ⟨hway, FS.look_eq_none.mpr hnone, FS.look_dir hdir⟩

/-- What was there is still there. -/
theorem AddsDirs.look_some (h : AddsDirs way t t') {entry : Entry} (hl : t.look l = some entry) :
    t'.look l = some entry := by
  refine ((h.look l).resolve_right fun hnew => ?_).trans hl
  rw [hnew.2.1] at hl
  cases hl

theorem AddsDirs.node_none (h : AddsDirs way t t') (hl : t'.node l = none) : t.node l = none := by
  rcases h l with hsame | hnew
  · exact hsame.1.symm.trans hl
  · exact hnew.2.1

/-- A file is not new. -/
theorem AddsDirs.sameAt_file (h : AddsDirs way t t') {i : Nat} (hl : t'.node l = some (.file i)) :
    SameAt l t t' := by
  refine (h l).resolve_right fun hnew => ?_
  rw [hl] at hnew
  cases hnew.2.2

theorem AddsDirs.node_new (h : AddsDirs way t t') (hl : t.node l = none) :
    t'.node l = none ∨ t'.node l = some .dir :=
  (h l).imp (fun hsame => hsame.1.trans hl) fun hnew => hnew.2.2

/-- The way to the parent of `l` does not lead to `l`. -/
theorem AddsDirs.look_end (h : AddsDirs l.dropLast t t') : t'.look l = t.look l := by
  refine (h.look l).resolve_right fun ⟨hway, hnone, _⟩ => ?_
  have hroot : l = [] := by
    by_contra hne
    exact not_prefix_dropLast hne hway
  rw [FS.look_eq_none, hroot, t.root] at hnone
  cases hnone

/-- Beyond the way nothing is new. -/
theorem AddsDirs.child (h : AddsDirs way t t') (n : Name) : SameAt (way ++ [n]) t t' := by
  refine (h (way ++ [n])).resolve_right fun hnew => ?_
  have hlen := hnew.1.length_le
  simp only [List.length_append, List.length_singleton] at hlen
  omega

theorem sameAt_insert {isDir : Bool} {hv : t.Vacant l} {k : Loc} (hk : k ≠ l) :
    SameAt k t (t.insert l isDir hv) :=
  ⟨Function.update_of_ne hk _ _,
    fun i hi => Function.update_of_ne (Nat.ne_of_lt (t.fresh k i hi)) _ _⟩

theorem addsDirs_insert {hv : t.Vacant l} (h : l <+: way) :
    AddsDirs way t (t.insert l true hv) := by
  intro k
  by_cases hk : k = l
  · subst hk
    exact Or.inr ⟨h, hv.new, by simp [FS.insert]⟩
  · exact Or.inl (sameAt_insert hk)

theorem addsDirs_mkdirs (t : FS) (fault : Option (Nat × Errno)) (k rest : Loc) :
    AddsDirs (k ++ rest) t (t.mkdirs fault k rest).2.1 := by
  fun_induction FS.mkdirs t fault k rest with
  | case1 => exact .refl _
  | case2 => exact .refl _
  | case3 t fault k n rest _ fault' hnew hdir r t' effects heq ih =>
    rw [heq, List.append_assoc] at ih
    exact (addsDirs_insert (by simp)).trans ih
  | case4 => exact .refl _
  | case5 t fault k n rest _ fault' _ _ ih =>
    rwa [List.append_assoc] at ih
  | case6 => exact .refl _

theorem addsDirs_mkdirAll (t : FS) (choice : Choice) (path : Str) :
    AddsDirs (locate path) t (t.mkdirAll choice path).2.1 :=
  addsDirs_mkdirs t choice.fault [] (locate path)

/-- `MkdirAll` does not get from `k` to the end of `rest`: it fails on the way, or a file
stands there. -/
def Blocked (t : FS) (fault : Option (Nat × Errno)) (k rest : Loc) : Prop :=
  (∃ steps e, fault = some (steps, e) ∧ steps ≤ rest.length) ∨
    ∃ a i, a <+: rest ∧ t.node (k ++ a) = some (.file i)

/-- One step further: the obstacle is the next name, or it is beyond it. -/
theorem blocked_cons {fault : Option (Nat × Errno)} {k rest : Loc} {n : Name}
    (hk : t.node k = some .dir) (h0 : ∀ e, fault ≠ some (0, e)) :
    Blocked t fault k (n :: rest) ↔
      Blocked t (fault.map fun (steps, e) => (steps - 1, e)) (k ++ [n]) rest := by
  unfold Blocked
  refine or_congr ?_ ?_
  · cases fault with
    | none => simp
    | some fault =>
      obtain ⟨steps, e⟩ := fault
      have hpos : steps ≠ 0 := fun h => h0 e (h ▸ rfl)
      simp only [Option.some.injEq, Prod.mk.injEq, List.length_cons, Option.map_some]
      constructor
      · rintro ⟨_, _, ⟨rfl, rfl⟩, hle⟩
        exact ⟨_, _, ⟨rfl, rfl⟩, by omega⟩
      · rintro ⟨_, _, ⟨rfl, rfl⟩, hle⟩
        exact ⟨_, _, ⟨rfl, rfl⟩, by omega⟩
  · constructor
    · rintro ⟨a, i, ha, hnode⟩
      cases a with
      | nil =>
        rw [List.append_nil, hk] at hnode
        cases hnode
      | cons m a =>
        obtain ⟨rfl, ha'⟩ := List.cons_prefix_cons.mp ha
        exact ⟨a, i, ha', by simpa using hnode⟩
    · rintro ⟨a, i, ha, hnode⟩
      exact ⟨n :: a, i, List.cons_prefix_cons.mpr ⟨rfl, ha⟩, by simpa using hnode⟩

/-- Where nothing is, there is no file in the way. -/
theorem blocked_insert {fault : Option (Nat × Errno)} {rest : Loc} (hv : t.Vacant l) :
    Blocked (t.insert l true hv) fault l rest ↔ Blocked t fault l rest := by
  refine or_congr_right (exists_congr fun a => exists_congr fun i => and_congr_right fun _ => ?_)
  by_cases ha : l ++ a = l
  · rw [ha, hv.new]
    simp [FS.insert]
  · rw [(sameAt_insert ha).1]

/-- `MkdirAll` fails where it is blocked, and otherwise the directory is there. -/
theorem mkdirs_spec (t : FS) (fault : Option (Nat × Errno)) (k rest : Loc)
    (hk : t.node k = some .dir) :
    (Blocked t fault k rest ∧ ∃ e, (t.mkdirs fault k rest).1 = .error e) ∨
      (¬ Blocked t fault k rest ∧ (t.mkdirs fault k rest).1 = .ok () ∧
        (t.mkdirs fault k rest).2.1.node (k ++ rest) = some .dir) := by
  fun_induction FS.mkdirs t fault k rest with
  | case1 => exact Or.inl ⟨Or.inl ⟨0, _, rfl, Nat.zero_le _⟩, _, rfl⟩
  | case2 t fault k h0 =>
    refine Or.inr ⟨?_, rfl, by simpa using hk⟩
    rintro (⟨steps, e, hfault, hle⟩ | ⟨a, i, ha, hnode⟩)
    · obtain rfl : steps = 0 := by simpa using hle
      exact h0 e hfault
    · rw [List.prefix_nil.mp ha, List.append_nil, hk] at hnode
      cases hnode
  | case3 t fault k n rest h0 fault' hnew hdir r t' effects heq ih =>
    have hv : t.Vacant (k ++ [n]) := ⟨by simp, by simpa using hdir, hnew⟩
    rw [blocked_cons hk (fun e he => h0 e he), List.append_cons k n rest, ← blocked_insert hv]
    have hstep := ih (by simp [FS.insert])
    rwa [heq] at hstep
  | case4 t fault k n rest h0 hnew hdir => exact absurd hk hdir
  | case5 t fault k n rest h0 fault' hnew hdir ih =>
    rw [blocked_cons hk (fun e he => h0 e he), List.append_cons k n rest]
    exact ih hdir
  | case6 t fault k n rest h0 hnew hdir =>
    refine Or.inl ⟨Or.inr ⟨[n], ?_⟩, _, rfl⟩
    obtain ⟨node, hnode⟩ := Option.ne_none_iff_exists'.mp hnew
    cases node with
    | dir => exact absurd hnode hdir
    | file i => exact ⟨i, by simp, hnode⟩

/-- On the way to something that is there, no directory is missing. -/
theorem AddsDirs.sameAt (h : AddsDirs l.dropLast t t') (hl : t.node l ≠ none) (k : Loc) :
    SameAt k t t' := by
  refine (h k).resolve_right fun ⟨hway, hnone, _⟩ => ?_
  by_cases hroot : l = []
  · subst hroot
    rw [List.prefix_nil.mp hway, t.root] at hnone
    cases hnone
  · rw [FS.node_above (t.parent l hroot hl) hway] at hnone
    cases hnone

theorem mkdirs_of_dir (k rest : Loc) (h : t.node (k ++ rest) = some .dir) :
    t.mkdirs none k rest = (.ok (), t, []) := by
  induction rest generalizing k with
  | nil => simp [FS.mkdirs]
  | cons n rest ih =>
    rw [List.append_cons] at h
    have hdir : t.node (k ++ [n]) = some .dir := FS.node_above h (List.prefix_append _ _)
    simp only [FS.mkdirs, hdir, Option.map_none]
    simpa using ih (k ++ [n]) h

theorem mkdirAll_of_dir {path : Str} (h : t.node (locate path) = some .dir) (rand : Str) :
    t.mkdirAll (.smooth rand) path = (.ok (), t, []) :=
  mkdirs_of_dir [] (locate path) h

/-- A file stands on the way to `l`, or at `l`. -/
def Obstructed (t : FS) (l : Loc) : Prop := ∃ k i, k <+: l ∧ t.node k = some (.file i)

/-- The directory `l` and those on the way to it are there, and all else is as before. -/
def Makes (l : Loc) (t t' : FS) : Prop :=
  (∀ k, k <+: l → t'.node k = some .dir) ∧ ∀ k, ¬ k <+: l → SameAt k t t'

theorem blocked_none_iff : Blocked t none [] l ↔ Obstructed t l := by
  simp [Blocked, Obstructed]

theorem obstructed_congr (h : ∀ k, t'.node k = t.node k) (way : Loc) :
    Obstructed t' way ↔ Obstructed t way := by
  simp only [Obstructed, h]

/-- New directories where no file was bring no file and take none away. -/
theorem Makes.obstructed_iff (h : Makes l t t') (hl : ¬ Obstructed t l) (way : Loc) :
    Obstructed t' way ↔ Obstructed t way := by
  constructor
  · rintro ⟨k, i, hway, hfile⟩
    by_cases hk : k <+: l
    · rw [h.1 k hk] at hfile
      cases hfile
    · exact ⟨k, i, hway, (h.2 k hk).1.symm.trans hfile⟩
  · rintro ⟨k, i, hway, hfile⟩
    have hk : ¬ k <+: l := fun hk => hl ⟨k, i, hk, hfile⟩
    exact ⟨k, i, hway, (h.2 k hk).1.trans hfile⟩

theorem not_obstructed_empty (l : Loc) : ¬ Obstructed .empty l := by
  rintro ⟨k, i, _, hfile⟩
  simp only [FS.empty] at hfile
  split at hfile <;> cases hfile

/-- In the empty tree it can be seen which directory was made. -/
theorem Makes.unique {k : Loc} (h : Makes l .empty t) (h' : Makes k .empty t) : l = k := by
  have hpre : ∀ {l k : Loc}, Makes l .empty t → Makes k .empty t → l <+: k := by
    intro l k h h'
    by_contra hnot
    have hnode := (h'.2 l hnot).1.symm.trans (h.1 l List.prefix_rfl)
    have hroot : l ≠ [] := by
      rintro rfl
      exact hnot List.nil_prefix
    simp [FS.empty, hroot] at hnode
  exact (hpre h h').eq_of_length_le (hpre h' h).length_le

/-- What stands above a file is there already, so a file on the way keeps all new directories
away. -/
theorem AddsDirs.obstructed (h : AddsDirs l t t') (hl : Obstructed t l) (k : Loc) :
    SameAt k t t' := by
  obtain ⟨a, i, hal, hfile⟩ := hl
  refine (h k).resolve_right fun ⟨hkl, hnone, hnew⟩ => ?_
  rcases List.prefix_or_prefix_of_prefix hkl hal with hka | hak
  · by_cases hsame : a = k
    · rw [← hsame, hfile] at hnone
      cases hnone
    · rw [FS.node_beneath (by simp [hnone]) hka hsame] at hfile
      cases hfile
  · have hdir := FS.node_above hnew hak
    rw [(h.file hfile).1] at hdir
    cases hdir

/-- `MkdirAll` without a failure of its own: it fails and does nothing if a file is in the
way, and otherwise it makes the directory. -/
theorem mkdirAll_smooth (t : FS) (rand path : Str) :
    let result := t.mkdirAll (.smooth rand) path
    (Obstructed t (locate path) ∧ (∃ e, result.1 = .error e) ∧ ∀ k, SameAt k t result.2.1) ∨
      (¬ Obstructed t (locate path) ∧ result.1 = .ok () ∧ Makes (locate path) t result.2.1) := by
  intro result
  have hadds : AddsDirs (locate path) t result.2.1 := addsDirs_mkdirAll t (.smooth rand) path
  rcases mkdirs_spec t none [] (locate path) t.root with ⟨hblocked, herr⟩ | ⟨hfree, hok, hdir⟩
  · rw [blocked_none_iff] at hblocked
    exact Or.inl ⟨hblocked, herr, hadds.obstructed hblocked⟩
  · rw [blocked_none_iff] at hfree
    refine Or.inr ⟨hfree, hok, fun k hk => FS.node_above hdir hk, fun k hk => ?_⟩
    exact (hadds k).resolve_right fun hnew => hk hnew.1

/-- Writing to one inode leaves all others alone. -/
theorem sameAt_write {i : Nat} {content : Str} (h : t.node l ≠ some (.file i)) :
    SameAt l t (t.write i content) := by
  refine ⟨rfl, fun j hj => Function.update_of_ne ?_ _ _⟩
  rintro rfl
  exact h hj

theorem look_file {i : Nat} (h : t.node l = some (.file i)) :
    t.look l = some (.file (t.data i)) := by
  simp [FS.look, h]

theorem look_write_self {i : Nat} (h : t.node l = some (.file i)) (content : Str) :
    (t.write i content).look l = some (.file content) := by
  rw [look_file (t := t.write i content) h]
  simp [FS.write]

/-- A new file with its content: everything else is as before. -/
theorem sameAt_insert_write {hv : t.Vacant l} {content : Str} {k : Loc} (hk : k ≠ l) :
    SameAt k t ((t.insert l false hv).write t.next content) := by
  have hinsert : SameAt k t (t.insert l false hv) := sameAt_insert hk
  refine hinsert.trans (sameAt_write fun hfile => ?_)
  exact Nat.lt_irrefl _ (t.fresh k _ (hinsert.1 ▸ hfile))

theorem look_insert_write {hv : t.Vacant l} {content : Str} :
    ((t.insert l false hv).write t.next content).look l = some (.file content) :=
  look_write_self (by simp [FS.insert]) content

theorem sameAt_rename_file {src dst : Loc} {h : t.Movable src dst} {i : Nat}
    (hsrc : t.node src = some (.file i)) (hdst : t.node dst ≠ some .dir) (hls : l ≠ src)
    (hld : l ≠ dst) : SameAt l t (t.rename src dst h) :=
  ⟨FS.movedNode_file hsrc hdst hls hld, fun _ _ => rfl⟩

theorem sameAt_prune {gone : Loc → Bool} {hp : t.Prunable gone} (h : ¬ gone l = true) :
    SameAt l t (t.prune gone hp) :=
  ⟨if_neg h, fun _ _ => rfl⟩

theorem remove_missing {path : Str} (h : t.node (locate path) = none) (choice : Choice) :
    ∃ e, t.remove choice path = (.error e, t, []) := by
  unfold FS.remove
  split
  · exact ⟨_, rfl⟩
  · exact ⟨_, if_pos h⟩

theorem remove_file {path : Str} {i : Nat} (h : t.node (locate path) = some (.file i))
    {choice : Choice} (hfault : choice.fault = none) :
    ∃ hp, t.remove choice path =
      (.ok (), t.prune (· = locate path) hp, [.removed (locate path)]) := by
  have hroot : locate path ≠ [] := by
    intro hnil
    rw [hnil, t.root] at h
    cases h
  have hchild : ¬ t.hasChild (locate path) = true := by
    intro hany
    obtain ⟨k, _, hk⟩ := List.any_eq_true.mp hany
    obtain ⟨hne, hlast, hnode⟩ := of_decide_eq_true hk
    have hdir := t.parent k hne hnode
    rw [hlast, h] at hdir
    cases hdir
  refine ⟨FS.prunable_leaf hroot hchild, ?_⟩
  simp [FS.remove, hfault, h, hroot, hchild]

/-- Only what is there can be renamed. -/
theorem renamePath_ok {choice : Choice} {old new : Str} {t' : FS} {effects : List Effect}
    (h : t.renamePath choice old new = (.ok (), t', effects)) : t.node (locate old) ≠ none := by
  intro hnone
  unfold FS.renamePath at h
  dsimp only at h
  split at h
  · cases h
  · rw [if_pos hnone] at h
    cases h

/-- A file that is renamed onto itself stays. -/
theorem renamePath_same {choice : Choice} {old new : Str} {i : Nat}
    (hfile : t.node (locate old) = some (.file i)) (hsame : locate old = locate new)
    (hfault : choice.fault = none) :
    t.renamePath choice old new = (.ok (), t, [.renamed (locate old) (locate new)]) := by
  simp [FS.renamePath, hfault, hfile, ← hsame]

/-- What is there is renamed to a place beside it, unless a directory would replace a file. -/
theorem renamePath_beside {old new : Str} (hsrc : t.node (locate old) ≠ none)
    (hdst : t.node (locate new) ≠ some .dir) (hbeside : ¬ locate old <+: locate new)
    (hdir : t.node (locate new).dropLast = some .dir)
    (hkind : t.node (locate old) = some .dir → t.node (locate new) = none) (rand : Str) :
    ∃ h, t.renamePath (.smooth rand) old new =
      (.ok (), t.rename (locate old) (locate new) h, [.renamed (locate old) (locate new)]) := by
  have hne : locate old ≠ locate new := fun he => hbeside (he ▸ List.prefix_rfl)
  refine ⟨⟨fun hnil => hdst (hnil ▸ t.root), hbeside, hdir⟩, ?_⟩
  unfold FS.renamePath
  simp only [Choice.smooth]
  rw [if_neg hsrc, dif_neg hdst, if_neg hne, dif_neg hbeside, dif_pos hdir,
    if_neg fun hboth => hboth.2 (hkind hboth.1)]

/-- A directory does not replace a file. -/
theorem renamePath_dir {old new : Str} (hsrc : t.node (locate old) = some .dir)
    (hdst : t.node (locate new) ≠ none) (hne : locate old ≠ locate new) (choice : Choice) :
    ∃ e, t.renamePath choice old new = (.error e, t, []) := by
  unfold FS.renamePath
  dsimp only
  split
  · exact ⟨_, rfl⟩
  · split_ifs
    · exact ⟨_, rfl⟩
    · exact ⟨_, rfl⟩
    · exact ⟨_, rfl⟩
    · exact ⟨_, rfl⟩
    · rename_i _ _ _ _ hkind
      exact absurd ⟨hsrc, hdst⟩ hkind
    · exact ⟨_, rfl⟩

end

/-- `CreateTemp` in a directory fails by itself, or if the name is taken. -/
theorem createTemp_spec {t : FS} {dir pre : Str} (hdir : t.node (locate dir) = some .dir)
    (choice : Choice) :
    ((choice.fault ≠ none ∨
        ∀ n : Name, n.val = pre ++ choice.rand → t.node (locate dir ++ [n]) ≠ none) ∧
      ∃ e, t.createTemp choice dir pre = (.error e, t, [])) ∨
      ∃ (n : Name) (h : t.Vacant (locate dir ++ [n])), choice.fault = none ∧
        n.val = pre ++ choice.rand ∧
        t.createTemp choice dir pre = (.ok ⟨.file t.next, FS.joinPath dir n.val⟩,
          t.insert (locate dir ++ [n]) false h, [.created (locate dir ++ [n]) false]) := by
  unfold FS.createTemp
  cases hfault : choice.fault with
  | some fault => exact Or.inl ⟨Or.inl (by simp), _, rfl⟩
  | none =>
    dsimp only
    split_ifs with hname hnew
    · exact Or.inr ⟨⟨_, hname⟩, FS.vacant_of_dir (by simpa using hdir) hnew, rfl, rfl, rfl⟩
    · refine Or.inl ⟨Or.inr fun n hn => ?_, _, rfl⟩
      have hn' : n = ⟨pre ++ choice.rand, hname⟩ := Name.ext hn
      exact hn' ▸ hnew
    · exact Or.inl ⟨Or.inr fun n hn => absurd (hn ▸ n.isName) hname, _, rfl⟩

/-- A program that starts with `MkdirAll`. -/
theorem run_mkdirAll (path : Str) (f : Unit → OsM Unit) (choices : Nat → Choice) (t : FS) :
    let ran := Prog.run (mkdirAll path >>= f).run choices t
    ∃ t₁, AddsDirs (locate path) t t₁ ∧
      ((Blocked t (choices 0).fault [] (locate path) ∧ ran.state = t₁) ∨
        (¬ Blocked t (choices 0).fault [] (locate path) ∧ t₁.node (locate path) = some .dir ∧
          ran.value = (Prog.run (f ()).run (fun n => choices (n + 1)) t₁).value ∧
          ran.state = (Prog.run (f ()).run (fun n => choices (n + 1)) t₁).state)) := by
  refine ⟨_, addsDirs_mkdirAll t (choices 0) path, ?_⟩
  rcases mkdirs_spec t (choices 0).fault [] (locate path) t.root with
    ⟨hblocked, e, herr⟩ | ⟨hfree, hok, hdir⟩
  · exact Or.inl ⟨hblocked, (Prog.run_bindE_error (p := mkdirAll path) (s := t) herr f).2⟩
  · exact Or.inr ⟨hfree, hdir, Prog.run_bindE_ok (p := mkdirAll path) (s := t) hok f⟩

/-- A program that starts with `CreateTemp`, in a directory. -/
theorem run_createTemp (path pre : Str) (f : Handle → OsM Unit) (choices : Nat → Choice)
    {t : FS} (hdir : t.node (locate path) = some .dir) :
    let ran := Prog.run (createTemp path pre >>= f).run choices t
    (((choices 0).fault ≠ none ∨
        ∀ n : Name, n.val = pre ++ (choices 0).rand → t.node (locate path ++ [n]) ≠ none) ∧
      ran.state = t) ∨
      ∃ (n : Name) (h : t.Vacant (locate path ++ [n])) (tmp : Handle), (choices 0).fault = none ∧
        n.val = pre ++ (choices 0).rand ∧ tmp.node = .file t.next ∧
        ran.value = (Prog.run (f tmp).run (fun n => choices (n + 1))
          (t.insert (locate path ++ [n]) false h)).value ∧
        ran.state = (Prog.run (f tmp).run (fun n => choices (n + 1))
          (t.insert (locate path ++ [n]) false h)).state := by
  rcases createTemp_spec hdir (choices 0) with ⟨hcond, e, heq⟩ | ⟨n, hv, hfault, hn, heq⟩
  · have hstate : (Prog.run (createTemp path pre).run choices t).state = t :=
      congrArg (fun ran => ran.2.1) heq
    refine Or.inl ⟨hcond, ?_⟩
    exact (Prog.run_bindE_error (p := createTemp path pre) (s := t)
      (congrArg Prod.fst heq) f).2.trans hstate
  · have hstate : (Prog.run (createTemp path pre).run choices t).state =
        t.insert (locate path ++ [n]) false hv := congrArg (fun ran => ran.2.1) heq
    have hnext := Prog.run_bindE_ok (p := createTemp path pre) (s := t) (congrArg Prod.fst heq) f
    rw [hstate] at hnext
    exact Or.inr ⟨n, hv, _, hfault, hn, rfl, hnext⟩

theorem openFile_of_node {t : FS} {path : Str} {n : Node} (h : t.node (locate path) = some n)
    (rand : Str) : t.openFile (.smooth rand) path = (.ok ⟨n, path⟩, t, []) := by
  simp [FS.openFile, Choice.smooth, h]

theorem create_of_file {t : FS} {path : Str} {i : Nat}
    (h : t.node (locate path) = some (.file i)) (rand : Str) :
    t.create (.smooth rand) path =
      (.ok ⟨.file i, path⟩, t.write i [], (t.places i).map .written) := by
  unfold FS.create Choice.smooth
  dsimp only
  split <;> rename_i hnode <;> rw [h] at hnode <;> cases hnode
  rfl

/-- Where there is no directory but room for a file, `os.Create` makes an empty one. -/
theorem create_smooth {t : FS} {path : Str} (hnode : t.node (locate path) ≠ some .dir)
    (hdir : t.node (locate path).dropLast = some .dir) (rand : Str) :
    ∃ i t' effects, t.create (.smooth rand) path = (.ok ⟨.file i, path⟩, t', effects) ∧
      t'.node (locate path) = some (.file i) ∧ t'.data i = [] ∧
      ∀ k, k ≠ locate path → t'.node k = t.node k := by
  cases h : t.node (locate path) with
  | none =>
    refine ⟨t.next, t.insert (locate path) false (FS.vacant_of_dir hdir h),
      [.created (locate path) false], ?_, ?_, ?_, ?_⟩
    · unfold FS.create Choice.smooth
      dsimp only
      split <;> rename_i hnode' <;> rw [h] at hnode' <;> cases hnode'
      rw [dif_pos hdir]
    · simp [FS.insert]
    · simp [FS.insert]
    · intro k hk
      exact Function.update_of_ne hk _ _
  | some node =>
    cases node with
    | dir => exact absurd h hnode
    | file i =>
      refine ⟨i, _, _, create_of_file h rand, h, ?_, fun _ _ => rfl⟩
      simp [FS.write]

theorem create_dir {t : FS} {path : Str} (h : t.node (locate path) = some .dir)
    (choice : Choice) : ∃ e, t.create choice path = (.error e, t, []) := by
  rcases t.create_cases choice path with herr | ⟨i, hi, _⟩ | ⟨hv, _⟩
  · exact herr
  · rw [h] at hi
    cases hi
  · have hnew := hv.new
    rw [h] at hnew
    cases hnew

/-- A write to an open file: the whole of it, or a part and an error. -/
theorem writeAt_file (t : FS) (choice : Choice) {h : Handle} {i : Nat} (hi : h.node = .file i)
    (offset : Nat) (bytes : Str) :
    (∃ e steps, choice.fault = some (steps, e) ∧ t.writeAt choice h offset bytes =
      (.error e, t.write i (FS.overlay (t.data i) offset (bytes.take steps)),
        (t.places i).map .written)) ∨
      (choice.fault = none ∧ t.writeAt choice h offset bytes =
        (.ok (), t.write i (FS.overlay (t.data i) offset bytes), (t.places i).map .written)) := by
  unfold FS.writeAt
  rw [hi]
  dsimp only
  cases hfault : choice.fault with
  | none => exact Or.inr ⟨rfl, rfl⟩
  | some fault =>
    obtain ⟨steps, e⟩ := fault
    exact Or.inl ⟨e, steps, rfl, rfl⟩

theorem write_write (t : FS) (i : Nat) (content content' : Str) :
    (t.write i content).write i content' = t.write i content' := by
  simp [FS.write]

theorem write_data (t : FS) (i : Nat) : t.write i (t.data i) = t := by
  simp [FS.write]

/-- A write to a file that was just truncated. -/
theorem write_truncated (t : FS) (i : Nat) (bytes : Str) :
    (t.write i []).write i (FS.overlay ((t.write i []).data i) 0 bytes) = t.write i bytes := by
  simp [FS.write, FS.overlay]

/-- A copy into a file that was just truncated: nothing, or a part of the source. -/
theorem copyFile_truncated {t : FS} {i : Nat} {out : Handle} (hout : out.node = .file i)
    (choice : Choice) (input : Handle) :
    (∃ e, input.node = .dir ∧ (t.write i []).copyFile choice out input =
      (.error e, t.write i [], [])) ∨
      ∃ j steps r, input.node = .file j ∧ (t.write i []).copyFile choice out input =
        (r, t.write i (((t.write i []).data j).take steps), (t.places i).map .written) := by
  unfold FS.copyFile
  cases hnode : input.node with
  | dir => exact Or.inl ⟨_, rfl, rfl⟩
  | file j =>
    right
    rcases writeAt_file (t.write i []) choice hout 0 ((t.write i []).data j) with
      ⟨e, steps, _, heq⟩ | ⟨_, heq⟩
    · rw [write_truncated] at heq
      exact ⟨j, steps, .error e, rfl, heq⟩
    · rw [write_truncated] at heq
      refine ⟨j, ((t.write i []).data j).length, .ok (), rfl, ?_⟩
      rw [List.take_length]
      exact heq

/-- A copy into such a file that is cut off. -/
theorem copyFile_cut {t : FS} {i j steps : Nat} {out input : Handle} {e : Errno} {content : Str}
    (hout : out.node = .file i) (hin : input.node = .file j)
    (hcontent : ((t.write i []).data j).take steps = content) :
    (t.write i []).copyFile ⟨some (steps, e), [], []⟩ out input =
      (.error e, t.write i content, (t.places i).map .written) := by
  subst hcontent
  unfold FS.copyFile FS.writeAt
  rw [hin, hout]
  dsimp only
  rw [write_truncated]
  rfl

/-- Bytes that are written behind a content are appended to it. -/
theorem overlay_length (content bytes : Str) :
    FS.overlay content content.length bytes = content ++ bytes := by
  simp [FS.overlay]

/-- Bytes that are written to an empty file are its content. -/
theorem overlay_empty (bytes : Str) : FS.overlay [] 0 bytes = bytes := overlay_length [] bytes

/-! ## Reading -/

namespace FS

/-- `os.Stat`. -/
def stat (t : FS) (choice : Choice) (path : Str) : Except Errno Entry :=
  match choice.fault with
  | some (_, e) => .error e
  | none =>
      match t.look (locate path) with
      | none => .error (t.missing (locate path))
      | some entry => .ok entry

/-- The name of `k` in the directory `l`, if that is where it stands. -/
def childName (t : FS) (l k : Loc) : Option Str :=
  if k ≠ [] ∧ k.dropLast = l ∧ t.node k ≠ none then k.getLast?.map Name.val else none

/-- The names in a directory, sorted. -/
def names (t : FS) (l : Loc) : List Str := sorted (t.dom.filterMap (t.childName l)).toFinset

/-- The names that `os.ReadDir` returns. -/
def readDir (t : FS) (choice : Choice) (path : Str) : Except Errno (List Str) :=
  match t.stat choice path with
  | .error e => .error e
  | .ok (.file _) => .error .notdir
  | .ok .dir => .ok (t.names (locate path))

/-- What can be read from an open file or directory. -/
def shown (t : FS) (h : Handle) : Entry :=
  match h.node with
  | .dir => .dir
  | .file i => .file (t.data i)

theorem mem_names {t : FS} {l : Loc} {c : Str} :
    c ∈ t.names l ↔ ∃ n : Name, n.val = c ∧ t.node (l ++ [n]) ≠ none := by
  unfold names childName
  rw [mem_sorted, List.mem_toFinset, List.mem_filterMap]
  constructor
  · rintro ⟨k, _, hk⟩
    split at hk
    · rename_i hc
      obtain ⟨n, hn, rfl⟩ := Option.map_eq_some_iff.mp hk
      obtain ⟨k, rfl⟩ := List.getLast?_eq_some_iff.mp hn
      rw [List.dropLast_concat] at hc
      exact ⟨n, rfl, hc.2.1 ▸ hc.2.2⟩
    · cases hk
  · rintro ⟨n, rfl, hn⟩
    exact ⟨l ++ [n], t.mem_dom _ hn, by simp [hn]⟩

section

variable {t t' : FS} {l : Loc}

theorem missing_congr (h : ∀ k, k <+: l → t'.node k = t.node k) : t'.missing l = t.missing l := by
  have hany : (l.inits.any fun k => t'.node k ≠ none ∧ t'.node k ≠ some .dir) =
      l.inits.any fun k => t.node k ≠ none ∧ t.node k ≠ some .dir := by
    rw [Bool.eq_iff_iff, List.any_eq_true, List.any_eq_true]
    refine exists_congr fun k => and_congr_right fun hk => ?_
    rw [h k ((List.mem_inits k l).mp hk)]
  unfold missing
  rw [hany]

theorem names_congr (h : ∀ n, t'.node (l ++ [n]) = t.node (l ++ [n])) : t'.names l = t.names l := by
  have hmem : ∀ c, c ∈ t'.names l ↔ c ∈ t.names l := by
    intro c
    rw [mem_names, mem_names]
    exact exists_congr fun n => by rw [h n]
  unfold names at hmem ⊢
  congr 1
  ext c
  simpa using hmem c

theorem stat_congr {path : Str} (h : ∀ k, k <+: locate path → SameAt k t t') (choice : Choice) :
    t'.stat choice path = t.stat choice path := by
  unfold stat
  rw [(h _ (List.prefix_refl _)).look, missing_congr fun k hk => (h k hk).1]

theorem readDir_congr {path : Str} (h : ∀ k, k <+: locate path → SameAt k t t')
    (hnames : ∀ n, t'.node (locate path ++ [n]) = t.node (locate path ++ [n])) (choice : Choice) :
    t'.readDir choice path = t.readDir choice path := by
  unfold readDir
  rw [stat_congr h, names_congr hnames]

theorem readDir_ok {path : Str} {choice : Choice} {cs : List Str}
    (h : t.readDir choice path = .ok cs) : cs = t.names (locate path) := by
  unfold readDir at h
  split at h
  · cases h
  · cases h
  · exact (Except.ok.inj h).symm

/-- Opening and reading shows what is there. -/
theorem shown_openFile (choice : Choice) (path : Str) :
    (t.openFile choice path).1.map t.shown = t.stat choice path := by
  unfold openFile stat
  cases choice.fault with
  | some fault => rfl
  | none =>
    unfold look
    dsimp only
    cases t.node (locate path) with
    | none => rfl
    | some n => cases n <;> rfl

end

end FS

end FileEngine.Os
