import FileEngine.Filesystem.Linked

/-!
# Finding what was written

After `AtomicWriteFile` has returned without an error, `Exists` and a second write of the same
parts check the path once more. Before the write the target need not be there, and its name is
checked as it stands; afterwards its links are resolved, those on the way to the base too, and
the result is compared with a base whose links are not resolved.

`write_found_iff`: the file is found again exactly if the path could be resolved before the write,
or the place of the target, with the links of its directory resolved, is admitted and is not that
of the temporary file.
-/

namespace FileEngine.Linked

open Go Os Filesystem

/-- The working directory, if it is known, is absolute: so is then the base. -/
theorem newLocalFs_isAbs {wd : Except Error Str} {baseRoot : Str} {l : LocalFs}
    (hwd : ∀ w, wd = .ok w → isAbs w = true) (h : newLocalFs wd baseRoot = .ok l) :
    isAbs l.baseRoot = true := by
  unfold newLocalFs at h
  split_ifs at h with hempty
  cases habs : abs wd baseRoot with
  | error e =>
    rw [habs] at h
    cases h
  | ok p =>
    rw [habs] at h
    cases h
    show isAbs (clean p) = true
    rw [isAbs_clean]
    unfold abs at habs
    split_ifs at habs with hrooted
    · cases habs
      rw [isAbs_clean, hrooted]
    · cases wd with
      | error e => cases habs
      | ok w =>
        cases habs
        have hw := hwd w rfl
        rw [isAbs_join w _ (by rintro rfl; cases hw), hw]

section

variable {l : LocalFs} {t t₁ t' : Tree} {parts : List Str} {d D q : Loc} {n m : Name}
  {content : Str}

/-- The parts pass the check, and `Exists` returns true for them. -/
def Found (l : LocalFs) (t : Tree) (parts : List Str) : Prop :=
  exists_ l t parts = .ok true ∧ ∃ full, sanitizeAndJoin l t parts = .ok full

theorem found_iff : Found l t parts ↔
    ∃ full k, sanitizeAndJoin l t parts = .ok full ∧ t.stat full = .ok k := by
  unfold Found exists_
  cases sanitizeAndJoin l t parts with
  | error e => simp
  | ok full =>
    dsimp only
    cases hstat : t.stat full with
    | ok k => simp [hstat]
    | error e =>
      cases e <;> simp [hstat]

/-- A file that the parts lead to is found if its place is admitted. -/
theorem found_of_resolves (habs : isAbs l.baseRoot = true)
    (hfile : t.node q = some (.file content)) (hq : t.Resolves (dest l parts) q) :
    Found l t parts ↔ Admits (locate l.baseRoot) q := by
  rw [found_iff]
  constructor
  · rintro ⟨full, k, hok, -⟩
    obtain ⟨q', -, hadmits, hq' | ⟨hnone, -⟩⟩ := (sanitizeAndJoin_iff habs).mp hok
    · exact hq.unique hq' ▸ hadmits
    · exact absurd hq (hnone q)
  · intro hadmits
    refine ⟨q.path, q, (sanitizeAndJoin_iff habs).mpr ⟨q, rfl, hadmits, Or.inl hq⟩, ?_⟩
    rw [Tree.stat, locate_path]
    exact Tree.lookup_self (Or.inr ⟨content, hfile⟩)

/-- Nothing is found at a name that is not in its directory. -/
theorem not_found_of_missing (habs : isAbs l.baseRoot = true) (hdest : dest l parts = d ++ [n])
    (hleads : t.Leads [] (d.map Name.val) D) (hmissing : t.node (D ++ [n]) = none) :
    ¬ Found l t parts := by
  rw [found_iff]
  rintro ⟨full, k, hok, hstat⟩
  obtain ⟨q, rfl, -, hq | ⟨-, hq⟩⟩ := (sanitizeAndJoin_iff habs).mp hok
  · obtain ⟨j, -, hwalks⟩ := hq
    rw [hdest] at hwalks
    exact Tree.not_walks_missing hleads hmissing hwalks
  · rw [Tree.stat, locate_path, hq, hdest] at hstat
    obtain ⟨j, -, hwalks⟩ := Tree.lookup_iff.mp hstat
    exact Tree.not_walks_missing hleads hmissing hwalks

/-! ## A target that could be resolved -/

/-- The directory of a resolved target has no links on its way. -/
theorem Prepared.dir_eq (h : Prepared l t parts d n D t₁) (hthere : t.node (d ++ [n]) ≠ none) :
    D = d :=
  h.leads.unique (Tree.walks_self (Or.inl (Tree.dir_of_child hthere))).leads

theorem found_of_resolved (habs : isAbs l.baseRoot = true) (hprep : Prepared l t parts d n D t₁)
    (hfree : t₁.node (D ++ [m]) = none) (hsettled : Settled t₁ D n m content (.ok ()) t')
    (hq : t.Resolves (dest l parts) (d ++ [n])) : Found l t' parts := by
  obtain ⟨hthere, hlink⟩ := hq.node
  obtain ⟨j, hj, hwalks⟩ := hq
  have hnode := hprep.grows.node hthere
  obtain rfl := hprep.dir_eq hthere
  cases hsettled with
  | lost hnm hsame =>
    rw [← hnm, hnode] at hfree
    exact absurd hfree hthere
  | written hnm hdir hfile hsame =>
    rw [← hprep.grows.linkAt] at hlink
    have hext := Tree.extends_replaced hdir hlink hfile hsame
    refine (found_of_resolves habs hfile ⟨j, hj, ?_⟩).mpr (admits_of_accepted habs hprep.accepted)
    exact (hwalks.extend hprep.grows.extends).extend hext

/-! ## A target that could not be resolved -/

theorem found_of_new (habs : isAbs l.baseRoot = true) (hprep : Prepared l t parts d n D t₁)
    (hfree : t₁.node (D ++ [m]) = none) (hsettled : Settled t₁ D n m content (.ok ()) t')
    (hdest : dest l parts = d ++ [n]) :
    Found l t' parts ↔ Admits (locate l.baseRoot) (D ++ [n]) ∧ n ≠ m := by
  cases hsettled with
  | lost hnm hsame =>
    have hleads : t'.Leads [] (d.map Name.val) D :=
      (Tree.lookup_leads hprep.lookup).congr fun k => by rw [Tree.linkAt, Tree.linkAt, hsame]
    have hmissing : t'.node (D ++ [n]) = none := by rw [hsame, hnm, hfree]
    exact iff_of_false (not_found_of_missing habs hdest hleads hmissing) fun h => h.2 hnm
  | written hnm hdir hfile hsame =>
    have hlookup := Tree.lookup_replaced hprep.lookup hprep.dir hprep.fail hdir hfile hsame
    have hparent : t'.node D = some .dir := Tree.dir_of_child (n := n) (by simp [hfile])
    obtain ⟨j, hj, hwalks⟩ :=
      Tree.lookup_iff.mp (Tree.lookup_concat hlookup hparent (Or.inr ⟨content, hfile⟩))
    rw [and_iff_left hnm]
    refine found_of_resolves habs hfile ⟨j, by omega, ?_⟩
    rw [hdest]
    exact hwalks

end

/-! ## The write and the check after it -/

theorem on_eq_of_ok {α : Type} {p : TreeM α} {t : Tree} {a : α} (h : (p.on t).1 = .ok a) :
    p.on t = (.ok a, (p.on t).2) := by
  rw [← h]

/-- **What is written can be found again.** Let `AtomicWriteFile` return without an error. Then
`Exists` returns true for the same parts, and they pass the check once more, exactly if they led
to something before the write, or the place of their last name, in the directory to which the
names before it lead, is at the base or beneath it and is not that of the temporary file. -/
theorem write_found_iff (wd : Except Error Str) (hwd : ∀ w, wd = .ok w → isAbs w = true)
    (baseRoot : Str) (l : LocalFs) (hnew : newLocalFs wd baseRoot = .ok l) (t : Tree)
    (ctxErr : Option Error) (rand : Str) (data : Reader) (parts : List Str) (t' : Tree)
    (hwrite : (atomicWriteFile l ctxErr rand data parts).on t = (.ok (), t')) :
    (exists_ l t' parts = .ok true ∧ ∃ full, sanitizeAndJoin l t' parts = .ok full) ↔
      (∃ q, t.Resolves (locate (l.full parts)) q) ∨
        ∃ (d : Loc) (n : Name) (D : Loc), locate (l.full parts) = d ++ [n] ∧
          Denotes t d.path D ∧ Admits (locate l.baseRoot) (D ++ [n]) ∧
          n.val ≠ str ".tmp-" ++ rand := by
  have habs := newLocalFs_isAbs hwd hnew
  have hwrote := (goes_atomicWriteFile habs ctxErr rand data parts t).ends
  rw [hwrite] at hwrote
  rw [Fs.full_eq_dest habs, locate_path]
  cases hwrote with
  | @settled d n D t₁ m content _ _ hprep hm hfree hsettled =>
    obtain ⟨q, hpath, -, hq | ⟨hnone, hq⟩⟩ := (sanitizeAndJoin_iff habs).mp hprep.accepted
    · obtain rfl := path_injective hpath
      exact iff_of_true (found_of_resolved habs hprep hfree hsettled hq) (Or.inl ⟨_, hq⟩)
    · have hdest : dest l parts = d ++ [n] := hq.symm.trans (path_injective hpath).symm
      refine (found_of_new habs hprep hfree hsettled hdest).trans ?_
      constructor
      · rintro ⟨hadmits, hnm⟩
        refine Or.inr ⟨d, n, D, hdest, ?_, hadmits, fun hn => hnm (Name.ext (hn.trans hm.symm))⟩
        rw [Denotes, locate_path]
        exact hprep.leads
      · rintro (⟨q', hq'⟩ | ⟨d', n', D', hdest', hdenotes, hadmits, hn⟩)
        · exact absurd hq' (hnone q')
        · obtain ⟨rfl, hn'⟩ := List.append_inj' (hdest.symm.trans hdest') rfl
          cases hn'
          rw [Denotes, locate_path] at hdenotes
          obtain rfl := hprep.leads.unique hdenotes
          exact ⟨hadmits, fun hnm => hn (hnm ▸ hm)⟩

/-- A new file in a base that is not there yet. -/
theorem write_found_plain : ∃ t', newLocalFs (.ok (str "/")) (str "srv") = .ok ⟨str "/srv"⟩ ∧
    (atomicWriteFile ⟨str "/srv"⟩ none (str "1") (fun _ => ⟨[], str "a", .eof⟩) [str "f"]).on
      .empty = (.ok (), t') ∧
    exists_ ⟨str "/srv"⟩ t' [str "f"] = .ok true ∧
    ∃ full, sanitizeAndJoin ⟨str "/srv"⟩ t' [str "f"] = .ok full := by
  have hwd : ∀ w, (.ok (str "/") : Except Error Str) = .ok w → isAbs w = true := by
    rintro w ⟨⟩
    decide
  have hnew : newLocalFs (.ok (str "/")) (str "srv") = .ok ⟨str "/srv"⟩ := by decide +kernel
  have hwrite := on_eq_of_ok (t := .empty) (p := atomicWriteFile ⟨str "/srv"⟩ none (str "1")
    (fun _ => ⟨[], str "a", .eof⟩) [str "f"]) (a := ()) (by decide +kernel)
  have hfull : locate (LocalFs.full ⟨str "/srv"⟩ [str "f"]) =
      locate (str "/srv") ++ [⟨str "f", by decide⟩] := by decide +kernel
  have hdenotes : Denotes .empty (Loc.path (locate (str "/srv"))) (locate (str "/srv")) := by
    rw [Denotes, locate_path]
    exact Tree.leads_self fun p _ => Tree.linkAt_empty p
  refine ⟨_, hnew, hwrite, (write_found_iff _ hwd _ _ hnew .empty _ _ _ _ _ hwrite).mpr (Or.inr ?_)⟩
  exact ⟨_, _, _, hfull, hdenotes, by decide, by decide⟩

/-- A base that is reached through a link. -/
def mounted : Tree :=
  ((Tree.empty.add (locate (str "/mnt")) .dir).add (locate (str "/mnt/data")) .dir).add
    (locate (str "/data")) (.link (str "/mnt/data"))

/-- The file is written, and then its path is refused. -/
theorem write_refused_afterwards :
    ∃ t', newLocalFs (.ok (str "/")) (str "/data") = .ok ⟨str "/data"⟩ ∧
      (atomicWriteFile ⟨str "/data"⟩ none (str "1") (fun _ => ⟨[], str "a", .eof⟩) [str "f"]).on
        mounted = (.ok (), t') ∧
      exists_ ⟨str "/data"⟩ t' [str "f"] = .error (.text (str "path outside base root")) ∧
      sanitizeAndJoin ⟨str "/data"⟩ t' [str "f"] =
        .error (.text (str "path outside base root")) :=
  ⟨_, by decide +kernel, on_eq_of_ok (by decide +kernel), by decide +kernel, by decide +kernel⟩

end FileEngine.Linked
