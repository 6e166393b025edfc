import FileEngine.Filesystem.Linked

/-!
# The jail and symbolic links

`symlinks_stay_iff`: the paths that `sanitizeAndJoin` accepts lead to the base or beneath it, for
all parts, exactly if every link that can be named beneath the base does. Then no call of an
operation changes anything outside of the base, unless the target is the base itself: the
temporary file is made in the directory of the target, and that is then above the base.
-/

namespace FileEngine.Linked

open Go Os Filesystem

/-! ## Links that stay -/

section

variable {t : Tree} {b d D q : Loc} {n : Name}

/-- Every link that can be named beneath the base, with a first name that does not begin with two
dots, leads to the base or beneath it. -/
def LinksStay (t : Tree) (b : Loc) : Prop :=
  ∀ d n D, Admits b (d ++ [n]) → t.Leads [] (d.map Name.val) D → t.linkAt (D ++ [n]) ≠ none →
    ∀ q, t.Leads [] ((D ++ [n]).map Name.val) q → b <+: q

/-- There is no link on the way to the base. -/
def NoLinkAbove (t : Tree) (b : Loc) : Prop := ∀ p, p <+: b → t.linkAt p = none

instance (t : Tree) (b : Loc) : Decidable (NoLinkAbove t b) :=
  decidable_of_iff (∀ p ∈ b.inits, t.linkAt p = none) (by simp [NoLinkAbove])

theorem leads_above (hbase : NoLinkAbove t b) (hd : d <+: b)
    (h : t.Leads [] (d.map Name.val) D) : D = d :=
  h.unique (Tree.leads_self fun p hp => hbase p (hp.trans hd))

/-- From a directory, one name leads where the names of the entry lead. -/
theorem leads_entry (hthere : t.node (D ++ [n]) ≠ none)
    (h : t.Leads [] ((D ++ [n]).map Name.val) q) : t.Leads D [n.val] q := by
  have hdir := Tree.dir_of_child hthere
  rw [List.map_append] at h
  obtain ⟨D', h₁, h₂⟩ := h.split rfl
  obtain rfl := h₁.unique (Tree.walks_self (Or.inl hdir)).leads
  exact h₂

theorem leads_inside (hlinks : LinksStay t b) (hbase : NoLinkAbove t b) (h : Admits b d)
    (hleads : t.Leads [] (d.map Name.val) q) : b <+: q := by
  -- name by name, from the base on
  induction d using List.reverseRecOn generalizing q with
  | nil =>
    obtain rfl := List.prefix_nil.mp h.1
    exact List.nil_prefix
  | append_singleton d n ih =>
    rcases admits_of_concat h with rfl | hd
    · rw [leads_above hbase List.prefix_rfl hleads]
    · rw [List.map_append] at hleads
      obtain ⟨D, h₁, h₂⟩ := hleads.split rfl
      have hD := ih hd h₁
      rcases h₂.of_name with ⟨-, rfl⟩ | hlink
      · exact hD.trans (List.prefix_append _ _)
      · have hsome : t.linkAt (D ++ [n]) ≠ none := Option.isSome_iff_ne_none.mp hlink
        refine hlinks d n D h h₁ hsome q ?_
        obtain ⟨target, htarget⟩ := Option.ne_none_iff_exists'.mp hsome
        have hdir : t.node D = some .dir :=
          Tree.dir_of_child (n := n) (by simp [Tree.linkAt_eq_some.mp htarget])
        rw [List.map_append]
        exact (Tree.walks_self (Or.inl hdir)).leads.append h₂

/-- The entry that an admitted path names is at the base or beneath it. -/
theorem entry_inside (hlinks : LinksStay t b) (hbase : NoLinkAbove t b) (h : Admits b (d ++ [n]))
    (hleads : t.Leads [] (d.map Name.val) D) : b <+: D ++ [n] := by
  rcases admits_of_concat h with rfl | hd
  · rw [leads_above hbase (List.prefix_append _ _) hleads]
  · exact (leads_inside hlinks hbase hd hleads).trans (List.prefix_append _ _)

end

/-! ## What the operations change -/

section

variable {l : LocalFs} {t t₁ t' : Tree} {parts : List Str} {b d D : Loc} {n m : Name}

/-- What has changed is at the base or beneath it, apart from directories above the base that were
missing. -/
def Inside (b : Loc) (t t' : Tree) : Prop :=
  ∀ k, t'.node k = t.node k ∨ b <+: k ∨ (k <+: b ∧ t.node k = none ∧ t'.node k = some .dir)

/-- After every call of the program, what has changed since its start is inside. -/
def StaysInside (b : Loc) (p : TreeM Unit) (t : Tree) : Prop := ∀ t' ∈ p.trail t, Inside b t t'

/-- The parts are accepted for the base itself, and that is not the root. -/
def AtBase (l : LocalFs) (t : Tree) (parts : List Str) : Prop :=
  locate l.baseRoot ≠ [] ∧ sanitizeAndJoin l t parts = .ok (Loc.path (locate l.baseRoot))

theorem Inside.refl (b : Loc) (t : Tree) : Inside b t t := fun _ => Or.inl rfl

theorem Inside.step (h : Inside b t t₁) (hstep : ∀ k, t'.node k = t₁.node k ∨ b <+: k) :
    Inside b t t' := by
  intro k
  rcases hstep k with hsame | hk
  · rw [hsame]
    exact h k
  · exact Or.inr (Or.inl hk)

theorem inside_grows (h : t.Grows D t₁) (hD : b <+: D ∨ D <+: b) : Inside b t t₁ := by
  intro k
  rcases h k with hsame | ⟨hnone, hdir, hk⟩
  · exact Or.inl hsame
  · rcases hD with hD | hD
    · rcases List.prefix_or_prefix_of_prefix hk hD with hkb | hbk
      · exact Or.inr (Or.inr ⟨hkb, hnone, hdir⟩)
      · exact Or.inr (Or.inl hbk)
    · exact Or.inr (Or.inr ⟨hk.trans hD, hnone, hdir⟩)

theorem move_inside {src dst : Loc} (hm : t₁.Movable src dst)
    (h : Inside b t t₁) (hsrc : b <+: src)
    (hdst : b <+: dst) : Inside b t (t₁.move src dst hm) := by
  refine h.step fun k => ?_
  by_cases hk : src <+: k ∨ dst <+: k
  · rcases hk with hk | hk
    · exact Or.inr (hsrc.trans hk)
    · exact Or.inr (hdst.trans hk)
  · rw [not_or] at hk
    exact Or.inl (Tree.movedNode_outside hk.1 hk.2)

/-- Beneath the root is everything. -/
theorem inside_of_root (hroot : sanitizeAndJoin l t parts = .ok (Loc.path []))
    (habs : isAbs l.baseRoot = true) (t' : Tree) : Inside (locate l.baseRoot) t t' := by
  rw [List.prefix_nil.mp (admits_of_accepted habs hroot).1]
  exact fun k => Or.inr (Or.inl List.nil_prefix)

section

variable (habs : isAbs l.baseRoot = true) (hlinks : LinksStay t (locate l.baseRoot))
  (hbase : NoLinkAbove t (locate l.baseRoot))

include habs hlinks hbase

theorem Prepared.inside (h : Prepared l t parts d n D t₁) : Inside (locate l.baseRoot) t t₁ := by
  refine inside_grows h.grows ?_
  rcases admits_of_concat (admits_of_accepted habs h.accepted) with hb | hd
  · have hd : d <+: locate l.baseRoot := hb ▸ List.prefix_append d [n]
    right
    rw [leads_above hbase hd h.leads]
    exact hd
  · exact Or.inl (leads_inside hlinks hbase hd h.leads)

theorem Prepared.target_inside (h : Prepared l t parts d n D t₁) :
    locate l.baseRoot <+: D ++ [n] :=
  entry_inside hlinks hbase (admits_of_accepted habs h.accepted) h.leads

/-- If the target is not the base, then its directory is at the base or beneath it, and so are
the temporary files. -/
theorem Prepared.dir_inside (h : Prepared l t parts d n D t₁) (hoff : ¬ AtBase l t parts) :
    locate l.baseRoot <+: D := by
  rcases admits_of_concat (admits_of_accepted habs h.accepted) with hb | hd
  · exact absurd ⟨by simp [← hb], by rw [← hb]; exact h.accepted⟩ hoff
  · exact leads_inside hlinks hbase hd h.leads

theorem Passes.inside (h : Prepared l t parts d n D t₁) (hoff : ¬ AtBase l t parts)
    (hpasses : Passes t₁ D n m t') : Inside (locate l.baseRoot) t t' := by
  refine (h.inside habs hlinks hbase).step fun k => ?_
  cases hpasses with
  | same hsame => exact Or.inl (hsame k)
  | temp hsame =>
    by_cases hk : k = D ++ [m]
    · have hD := h.dir_inside habs hlinks hbase hoff
      exact Or.inr (hk ▸ hD.trans (List.prefix_append _ _))
    · exact Or.inl (hsame k hk)
  | target hsame =>
    by_cases hk : k = D ++ [n]
    · exact Or.inr (hk ▸ h.target_inside habs hlinks hbase)
    · exact Or.inl (hsame k hk)

theorem createFolder_inside (ctxErr : Option Error) (parts : List Str) :
    StaysInside (locate l.baseRoot) (createFolder l ctxErr parts) t := by
  have hgoes : Goes (Inside (locate l.baseRoot) t) (fun _ _ => True)
      (createFolder l ctxErr parts) t := by
    unfold createFolder
    cases ctxErr with
    | some e => exact goes_bind (goes_throw trivial)
    | none =>
      refine goes_sanitized habs (.refl _ t) (fun e => trivial) fun q hok => goes_failing ?_
      rcases t.mkdirAll_spec q.path with ⟨e, heq⟩ | ⟨D, t₁, heq, hlookup, _, hgrows, _⟩
      · exact goes_call heq (.refl _ t) trivial
      · refine goes_call heq (inside_grows hgrows (Or.inl ?_)) trivial
        rw [locate_path] at hlookup
        refine leads_inside hlinks hbase (admits_of_accepted habs hok) ?_
        exact (Tree.lookup_leads hlookup).congr fun k => (hgrows.linkAt k).symm
  exact hgoes.trail

theorem atomicWriteFile_inside (ctxErr : Option Error) (rand : Str) (data : Reader)
    (parts : List Str) (hoff : ¬ AtBase l t parts) :
    StaysInside (locate l.baseRoot) (atomicWriteFile l ctxErr rand data parts) t := by
  intro t' hmem
  cases (goes_atomicWriteFile habs ctxErr rand data parts t).trail t' hmem with
  | unchanged hsame => exact fun k => Or.inl (hsame k)
  | beneath hprep hpasses => exact hpasses.inside habs hlinks hbase hprep hoff
  | root hroot => exact inside_of_root hroot habs t'

/-- The entry of an accepted path, in a tree where its directory is found as in `t₁`. -/
theorem source_inside (h : Prepared l t parts d n D t₁) {src : List Str} {q s : Loc}
    (hok : sanitizeAndJoin l t src = .ok (Loc.path q))
    (hfound : ∀ k D', t'.lookup k = .ok D' → t'.node D' = some .dir → t₁.lookup k = .ok D')
    (hentry : t'.entry (locate (Loc.path q)) = .ok s) : locate l.baseRoot <+: s := by
  rw [locate_path] at hentry
  obtain ⟨k, n', D', rfl, hlookup, hdir, rfl⟩ := Tree.entry_iff.mp hentry
  refine entry_inside hlinks hbase (admits_of_accepted habs hok) ?_
  exact (Tree.lookup_leads (hfound k D' hlookup hdir)).congr fun k => (h.grows.linkAt k).symm

theorem moveUploadedFile_inside (ctxErr : Option Error) (rand : Str) (src dst : List Str)
    (hoff : ¬ AtBase l t dst) :
    StaysInside (locate l.baseRoot) (moveUploadedFile l ctxErr rand src dst) t := by
  have hgoes : Goes (Inside (locate l.baseRoot) t) (fun _ _ => True)
      (moveUploadedFile l ctxErr rand src dst) t := by
    unfold moveUploadedFile
    cases ctxErr with
    | some e => exact goes_bind (goes_throw trivial)
    | none =>
      refine goes_invalid habs (.refl _ t) (fun e => trivial) fun q hsrc => ?_
      refine goes_invalid habs (.refl _ t) (fun e => trivial) fun q' hdst => ?_
      rcases List.eq_nil_or_concat' q' with rfl | ⟨d, n, rfl⟩
      · exact ⟨fun t' _ => inside_of_root hdst habs t', trivial⟩
      · rw [dir_path, List.dropLast_concat]
        rcases prepare habs hdst with ⟨e, heq⟩ | ⟨D, t₁, heq, hprep⟩
        · exact goes_bind (goes_failing (goes_call heq (.refl _ t) trivial))
        · have hmade := hprep.inside habs hlinks hbase
          refine goes_bind (goes_failing (goes_call heq hmade ?_))
          refine goes_bind (goes_attempt ?_)
          rcases t₁.rename_cases q.path (Loc.path (d ++ [n])) with
            ⟨e, hrename⟩ | ⟨s, s', hs, hs', _, _, ⟨_, hrename⟩ | ⟨_, hm, hrename⟩⟩
          · refine goes_call hrename hmade (goes_bind (goes_failing ?_))
            refine goes_mono (fun t' ⟨m, hpasses⟩ => hpasses.inside habs hlinks hbase hprep hoff)
              (fun r t' hr => ?_) (goes_copyFileContents hprep rand q.path)
            obtain ⟨m, content, hsettled⟩ := hr
            have hcopied := hsettled.passes.inside habs hlinks hbase hprep hoff
            cases r with
            | error e => trivial
            | ok _ =>
              refine goes_failing ?_
              rcases t'.remove_cases q.path with ⟨e, hremove⟩ | ⟨s, hleaf, hs, hremove⟩
              · exact goes_call hremove hcopied trivial
              · refine goes_call hremove (hcopied.step fun k => ?_) trivial
                rw [Tree.cut_node]
                split_ifs with hk
                · exact Or.inr (hk ▸ source_inside habs hlinks hbase hprep hsrc
                    (fun _ _ => hsettled.lookup) hs)
                · exact Or.inl rfl
          · exact goes_call hrename hmade ⟨fun _ h => absurd h List.not_mem_nil, trivial⟩
          · refine goes_call hrename (move_inside hm hmade ?_ ?_)
              ⟨fun _ h => absurd h List.not_mem_nil, trivial⟩
            · exact source_inside habs hlinks hbase hprep hsrc (fun _ _ h _ => h) hs
            · exact source_inside habs hlinks hbase hprep hdst (fun _ _ h _ => h) hs'
  exact hgoes.trail

end

end

/-! ## The jail -/

/-- A link that can be named and leads out of the base lets a path out. -/
theorem linksStay_of_accepted {l : LocalFs} {t : Tree} (habs : isAbs l.baseRoot = true)
    (hbase : NoLinkAbove t (locate l.baseRoot))
    (h : ∀ parts p, sanitizeAndJoin l t parts = .ok p →
      ∀ q, Denotes t p q → locate l.baseRoot <+: q) : LinksStay t (locate l.baseRoot) := by
  intro d n D hadmits hD hlink q hq
  by_contra hout
  obtain ⟨target, htarget⟩ := Option.ne_none_iff_exists'.mp hlink
  have hthere : t.node (D ++ [n]) ≠ none := by simp [Tree.linkAt_eq_some.mp htarget]
  have hleads : t.Leads [] ((d ++ [n]).map Name.val) q := by
    rw [List.map_append]
    exact hD.append (leads_entry hthere hq)
  -- an admitted place that cannot be resolved is accepted as it is
  have haccepted : ∀ k, Admits (locate l.baseRoot) k → (∀ q, ¬ t.Resolves k q) →
      ∀ q, t.Leads [] (k.map Name.val) q → locate l.baseRoot <+: q := by
    rintro k ⟨⟨k', rfl⟩, hplain⟩ hnone q hq
    have hdest := dest_path (l := l) k'
    have hok : sanitizeAndJoin l t [Loc.path k'] = .ok (Loc.path (locate l.baseRoot ++ k')) := by
      refine (sanitizeAndJoin_iff habs).mpr
        ⟨_, rfl, ⟨List.prefix_append _ _, hplain⟩, Or.inr ⟨?_, hdest.symm⟩⟩
      rw [hdest]
      exact hnone
    refine h _ _ hok q ?_
    rw [Denotes, locate_path]
    exact hq
  by_cases hresolves : ∃ q', t.Resolves (d ++ [n]) q'
  · obtain ⟨q', hq'⟩ := hresolves
    obtain rfl := hq'.leads.unique hleads
    obtain ⟨m, hfree, hne⟩ := t.exists_free q' (locate l.baseRoot)
    have hbeneath : Admits (locate l.baseRoot) (d ++ [n] ++ [m]) := by
      refine admits_beneath hadmits (fun hb => hlink ?_) m
      rw [leads_above hbase (hb ▸ List.prefix_append d [n]) hD, hb]
      exact hbase _ List.prefix_rfl
    have hlast : locate l.baseRoot <+: q' ++ [m] := by
      refine haccepted _ hbeneath (fun q ⟨j, _, hwalks⟩ => ?_) _ ?_
      · exact Tree.not_walks_missing hq'.leads hfree hwalks
      · rw [List.map_append]
        exact hq'.leads.append (.name m.isName (by simp [Tree.linkAt, hfree]) (.done _))
    rcases List.prefix_concat_iff.mp hlast with he | hin
    · exact hne he
    · exact hout hin
  · exact hout (haccepted _ hadmits (not_exists.mp hresolves) q hleads)

section

variable {l : LocalFs} {t t₁ : Tree} {parts : List Str} {m : Name} {rand : Str} {b : Loc}

/-- A file beside the base is not inside. -/
theorem not_inside_of_beside (hgrows : t.Grows b.dropLast t₁) (hroot : b ≠ [])
    (hm : b ≠ b.dropLast ++ [m]) (hfree : t₁.node (b.dropLast ++ [m]) = none)
    (h : t₁.Room (b.dropLast ++ [m])) :
    ¬ Inside b t (t₁.put (b.dropLast ++ [m]) (.file []) h) := by
  intro hinside
  have hmade : (t₁.put (b.dropLast ++ [m]) (.file []) h).node (b.dropLast ++ [m]) =
    some (.file []) := Tree.put_node_self h
  have hnew : t.node (b.dropLast ++ [m]) = none := by
    by_contra hthere
    exact hthere ((hgrows.node hthere).symm.trans hfree)
  rcases hinside (b.dropLast ++ [m]) with hsame | hbeneath | ⟨_, _, hdir⟩
  · rw [hmade, hnew] at hsame
    cases hsame
  · refine hm (hbeneath.eq_of_length ?_)
    have hpos := List.length_pos_iff.mpr hroot
    simp only [List.length_append, List.length_dropLast, List.length_singleton]
    omega
  · rw [hmade] at hdir
    cases hdir

/-- The temporary file for the base is made beside the base. -/
theorem AtBase.createTemp (h : AtBase l t parts) (hbase : NoLinkAbove t (locate l.baseRoot))
    (hmade : t.mkdirAll (dir (Loc.path (locate l.baseRoot))) = (.ok (), t₁)) {pre : Str}
    (hm : m.val = pre ++ rand) (hne : locate l.baseRoot ≠ (locate l.baseRoot).dropLast ++ [m])
    (hfree : t₁.node ((locate l.baseRoot).dropLast ++ [m]) = none) :
    ∃ tmp t', t₁.createTemp rand (dir (Loc.path (locate l.baseRoot))) pre = (.ok tmp, t') ∧
      ¬ Inside (locate l.baseRoot) t t' := by
  rw [dir_path] at hmade ⊢
  rcases t.mkdirAll_spec (Loc.path (locate l.baseRoot).dropLast) with
    ⟨e, heq⟩ | ⟨D, t', heq, hlookup, hdir, hgrows, _⟩
  · cases heq.symm.trans hmade
  · cases heq.symm.trans hmade
    rw [locate_path] at hlookup
    -- there is no link on the way to the directory of the base
    have hleads := (Tree.lookup_leads hlookup).congr fun k => (hgrows.linkAt k).symm
    obtain rfl := leads_above hbase ( List.dropLast_prefix _) hleads
    obtain ⟨hroom, hcreate⟩ := Tree.createTemp_free hlookup hdir hm hfree
    exact ⟨_, _, hcreate, not_inside_of_beside hgrows h.1 hne hfree hroom⟩

theorem on_sanitized {p : Str} (h : sanitizeAndJoin l t parts = .ok p) :
    (sanitized l parts).on t = (.ok p, t) := by
  show (sanitizeAndJoin l t parts, t) = _
  rw [h]

theorem on_invalid {message : String} {p : Str} (h : sanitizeAndJoin l t parts = .ok p) :
    (failing message (sanitized l parts)).on t = (.ok p, t) := by
  simp [TreeM.on, failing, sanitized, h, Except.mapError]

/-- A write to the base itself makes its temporary file beside the base. -/
theorem atomicWriteFile_atBase (h : AtBase l t parts) (hbase : NoLinkAbove t (locate l.baseRoot))
    (hparts : parts ≠ []) (hm : m.val = str ".tmp-" ++ rand)
    (hne : locate l.baseRoot ≠ (locate l.baseRoot).dropLast ++ [m])
    (hmade : t.mkdirAll (dir (Loc.path (locate l.baseRoot))) = (.ok (), t₁))
    (hfree : t₁.node ((locate l.baseRoot).dropLast ++ [m]) = none) (data : Reader) :
    ¬ StaysInside (locate l.baseRoot) (atomicWriteFile l none rand data parts) t := by
  obtain ⟨tmp, t', heq, hout⟩ := h.createTemp hbase hmade hm hne hfree
  intro hstays
  refine hout (hstays t' ?_)
  unfold atomicWriteFile
  rw [if_neg hparts]
  refine trail_right (on_sanitized h.2) (trail_right (on_failing_call hmade) (trail_left ?_))
  simp [TreeM.trail, failing, call, heq]

/-- So does a move to the base, since a directory is not replaced. -/
theorem moveUploadedFile_atBase (h : AtBase l t parts)
    (hbase : NoLinkAbove t (locate l.baseRoot)) (hm : m.val = str ".tmpcopy-" ++ rand)
    (hdir : t.node (locate l.baseRoot) = some .dir)
    (hfree : t.node ((locate l.baseRoot).dropLast ++ [m]) = none) {srcParts : List Str} {p : Str}
    {x : Item} (hsrc : sanitizeAndJoin l t srcParts = .ok p) (hopen : t.openFile p = .ok x) :
    ¬ StaysInside (locate l.baseRoot) (moveUploadedFile l none rand srcParts parts) t := by
  have hne : locate l.baseRoot ≠ (locate l.baseRoot).dropLast ++ [m] := by
    intro he
    rw [← he, hdir] at hfree
    cases hfree
  have hmade : t.mkdirAll (dir (Loc.path (locate l.baseRoot))) = (.ok (), t) := by
    rw [dir_path]
    exact Tree.mkdirAll_there (Tree.dropLast_dir hdir)
  obtain ⟨tmp, t', heq, hout⟩ := h.createTemp hbase hmade hm hne hfree
  have hrefused : ∃ e, t.rename p (Loc.path (locate l.baseRoot)) = (.error e, t) := by
    rcases t.rename_cases p (Loc.path (locate l.baseRoot)) with
      herr | ⟨src, dst, _, hdst, _, hnodir, _⟩
    · exact herr
    · rw [locate_path] at hdst
      obtain ⟨k, n, d, hk, hlookup, hd, rfl⟩ := Tree.entry_iff.mp hdst
      have hparent : t.node k = some .dir := Tree.dir_of_child (n := n) (by simp [← hk, hdir])
      rw [Tree.lookup_self (Or.inl hparent)] at hlookup
      cases hlookup
      exact absurd (hk ▸ hdir) hnodir
  obtain ⟨e, hrename⟩ := hrefused
  have hattempt : (attempt (call (·.rename p (Loc.path (locate l.baseRoot))))).on t =
      (.ok (.error (.errno e)), t) := by
    simp [TreeM.on, attempt, call, hrename, Except.mapError]
  have hlook : (failing "open src failed" (look (·.openFile p))).on t = (.ok x, t) :=
    on_failing_call (congrArg (·, t) hopen)
  intro hstays
  refine hout (hstays t' ?_)
  unfold moveUploadedFile
  refine trail_right (on_invalid hsrc) (trail_right (on_invalid h.2)
    (trail_right (on_failing_call hmade) (trail_right hattempt (trail_left ?_))))
  show t' ∈ (copyFileContents rand _ _).trail t
  refine trail_right hlook (trail_left ?_)
  simp [TreeM.trail, failing, call, heq]

end

/-- **Where the jail holds against links.** Let there be no link on the way to the base. All
accepted paths lead to the base or beneath it, and the operations change nothing outside of it in
any of their calls, if their target is not the base itself, exactly if every link that can be
named beneath the base leads to the base or beneath it. With the base as its target, a write makes
its temporary file beside the base, if it comes to that, and so does a move of something that is
there. -/
theorem symlinks_stay_iff (l : LocalFs) (habs : isAbs l.baseRoot = true) (t : Tree)
    (hbase : NoLinkAbove t (locate l.baseRoot)) :
    (((∀ parts p, sanitizeAndJoin l t parts = .ok p →
        ∀ q, Denotes t p q → locate l.baseRoot <+: q) ∧
      (∀ ctxErr parts, StaysInside (locate l.baseRoot) (createFolder l ctxErr parts) t) ∧
      (∀ ctxErr rand data parts, ¬ AtBase l t parts →
        StaysInside (locate l.baseRoot) (atomicWriteFile l ctxErr rand data parts) t) ∧
      ∀ ctxErr rand src dst, ¬ AtBase l t dst →
        StaysInside (locate l.baseRoot) (moveUploadedFile l ctxErr rand src dst) t) ↔
      LinksStay t (locate l.baseRoot)) ∧
    ∀ parts, AtBase l t parts → ∀ (rand : Str) (m : Name),
      (m.val = str ".tmp-" ++ rand → parts ≠ [] →
        locate l.baseRoot ≠ (locate l.baseRoot).dropLast ++ [m] →
        ∀ t₁, t.mkdirAll (dir (Loc.path (locate l.baseRoot))) = (.ok (), t₁) →
        t₁.node ((locate l.baseRoot).dropLast ++ [m]) = none → ∀ data,
        ¬ StaysInside (locate l.baseRoot) (atomicWriteFile l none rand data parts) t) ∧
      (m.val = str ".tmpcopy-" ++ rand → t.node (locate l.baseRoot) = some .dir →
        t.node ((locate l.baseRoot).dropLast ++ [m]) = none → ∀ srcParts p x,
        sanitizeAndJoin l t srcParts = .ok p → t.openFile p = .ok x →
        ¬ StaysInside (locate l.baseRoot) (moveUploadedFile l none rand srcParts parts) t) := by
  refine ⟨⟨?_, fun hlinks => ?_⟩, fun parts hat rand m => ⟨?_, ?_⟩⟩
  · rintro ⟨haccepted, -⟩
    exact linksStay_of_accepted habs hbase haccepted
  · refine ⟨fun parts p hok q hq => ?_, createFolder_inside habs hlinks hbase,
      atomicWriteFile_inside habs hlinks hbase, moveUploadedFile_inside habs hlinks hbase⟩
    obtain ⟨q', rfl, hadmits, -⟩ := (sanitizeAndJoin_iff habs).mp hok
    rw [Denotes, locate_path] at hq
    exact leads_inside hlinks hbase hadmits hq
  · exact fun hm hparts hne t₁ => atomicWriteFile_atBase hat hbase hparts hm hne
  · exact fun hm hdir hfree _ _ _ => moveUploadedFile_atBase hat hbase hm hdir hfree

/-- A base with a directory and a link to it. -/
def tame : Tree :=
  ((Tree.empty.add (locate (str "/srv")) .dir).add (locate (str "/srv/d")) .dir).add
    (locate (str "/srv/l")) (.link (str "d"))

/-- Writes through the link stay in the base, and a write to the base does not. -/
theorem symlinks_stay_tame :
    NoLinkAbove tame (locate (str "/srv")) ∧ tame.linkAt (locate (str "/srv/l")) = some (str "d") ∧
      (∀ rand data, StaysInside (locate (str "/srv"))
        (atomicWriteFile ⟨str "/srv"⟩ none rand data [str "l", str "f"]) tame) ∧
      ∀ data, ¬ StaysInside (locate (str "/srv"))
        (atomicWriteFile ⟨str "/srv"⟩ none (str "1") data [str "."]) tame := by
  have hbase : NoLinkAbove tame (locate (str "/srv")) := by decide
  have hlinks : LinksStay tame (locate (str "/srv")) := by
    intro d n D _ _ hlink q hq
    rcases Tree.linkAt_add_link hlink with he | hlink
    · rw [he] at hq
      have hwalk : tame.walk 1 [] ((locate (str "/srv/l")).map Name.val) =
        .ok (locate (str "/srv/d")) := by decide +kernel
      obtain ⟨j, _, hwalks⟩ := Tree.walk_sound hwalk
      rw [hq.unique hwalks.leads]
      decide
    · have hempty := Tree.linkAt_add (by simp) (Tree.linkAt_add (by simp) hlink)
      exact absurd (Tree.linkAt_empty _) hempty
  have hjail := symlinks_stay_iff ⟨str "/srv"⟩ (by decide) tame hbase
  have hoff : ¬ AtBase ⟨str "/srv"⟩ tame [str "l", str "f"] := by
    rintro ⟨_, hat⟩
    exact absurd hat (by decide +kernel)
  have hat : AtBase ⟨str "/srv"⟩ tame [str "."] := ⟨by decide, by decide +kernel⟩
  refine ⟨hbase, by decide, fun rand data => ?_, ?_⟩
  · exact (hjail.1.mpr hlinks).2.2.1 none rand data _ hoff
  · exact (hjail.2 _ hat (str "1") ⟨str ".tmp-1", by decide⟩).1 (by decide) (by decide) (by decide)
      tame rfl (by decide)

/-- A base with a link to a directory outside of it. -/
def leaky : Tree :=
  ((Tree.empty.add (locate (str "/srv")) .dir).add (locate (str "/etc")) .dir).add
    (locate (str "/srv/l")) (.link (str "/etc"))

/-- A new name behind the link is accepted, and the folder is made outside of the base. -/
theorem createFolder_through_link :
    NoLinkAbove leaky (locate (str "/srv")) ∧
      sanitizeAndJoin ⟨str "/srv"⟩ leaky [str "l", str "new"] = .ok (str "/srv/l/new") ∧
      Denotes leaky (str "/srv/l/new") (locate (str "/etc/new")) ∧
      ¬ locate (str "/srv") <+: locate (str "/etc/new") ∧
      leaky.node (locate (str "/etc/new")) = none ∧
      ((createFolder ⟨str "/srv"⟩ none [str "l", str "new"]).on leaky).2.node
        (locate (str "/etc/new")) = some .dir := by
  refine ⟨by decide, by decide +kernel, ?_, by decide, by decide, by decide +kernel⟩
  have hnames : (locate (str "/srv/l/new")).map Name.val = [str "srv", str "l", str "new"] := by
    decide
  have hlink : leaky.linkAt (locate (str "/srv/l")) = some (str "/etc") := by decide
  rw [Denotes, hnames]
  refine .name (by decide) (by decide) (.link (by decide) hlink ?_)
  refine .enter (by decide) (.name (by decide) (by decide) ?_)
  exact .name (by decide) (by decide) (.done _)

end FileEngine.Linked
