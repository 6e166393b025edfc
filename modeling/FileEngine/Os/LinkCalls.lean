import FileEngine.Os.Links

/-!
# System calls on trees with links

The calls of the package `os` on trees with symbolic links, as functions of the tree. No
call fails by itself; the errors are those that the tree gives rise to. The paths are
absolute and cleaned, so that `locate` reads off their names, and a path is followed over
at most 40 links, as by the system. `EvalSymlinks` follows up to 255.

Calls that make, rename or remove an entry follow the directory of the path only: the entry
itself may be a link, which is then replaced or removed (`entry`).

`mkdirs_spec` says what `MkdirAll` makes, and the `_cases` theorems say all that the other
calls can do.
-/

namespace FileEngine.Os

open Go

namespace Tree

variable {t t' : Tree} {l src dst : Loc}

/-! ## New trees -/

/-- There is a directory for an entry at `l`, and no directory at `l` itself. -/
def Room (t : Tree) (l : Loc) : Prop :=
  l ≠ [] ∧ t.node l.dropLast = some .dir ∧ t.node l ≠ some .dir

instance (t : Tree) (l : Loc) : Decidable (t.Room l) := inferInstanceAs (Decidable (_ ∧ _ ∧ _))

theorem dropLast_ne {l : Loc} (h : l ≠ []) : l.dropLast ≠ l := by
  intro he
  apply not_prefix_dropLast h
  rw [he]

/-- Put an item at a location, in the place of what was there. -/
def put (t : Tree) (l : Loc) (x : Item) (h : t.Room l) : Tree where
  node := Function.update t.node l (some x)
  dom := l :: t.dom
  root := by rw [Function.update_of_ne (Ne.symm h.1), t.root]
  parent := by
    intro k hk hnode
    by_cases hkl : k = l
    · rw [hkl, Function.update_of_ne (dropLast_ne h.1), h.2.1]
    · rw [Function.update_of_ne hkl] at hnode
      have hdir := t.parent k hk hnode
      rw [Function.update_of_ne, hdir]
      intro he
      exact h.2.2 (he ▸ hdir)
  mem_dom := by
    intro k hk
    by_cases hkl : k = l
    · exact hkl ▸ List.mem_cons_self
    · rw [Function.update_of_ne hkl] at hk
      exact List.mem_cons_of_mem _ (t.mem_dom k hk)

theorem put_node_self {x : Item} (h : t.Room l) : (t.put l x h).node l = some x :=
  Function.update_self ..

theorem put_node_of_ne {x : Item} (h : t.Room l) {k : Loc} (hk : k ≠ l) :
    (t.put l x h).node k = t.node k :=
  Function.update_of_ne hk ..

/-- Put an item where there is room for it. -/
def add (t : Tree) (l : Loc) (x : Item) : Tree := if h : t.Room l then t.put l x h else t

theorem linkAt_add {x : Item} (hx : ∀ target, x ≠ .link target) {k : Loc}
    (hk : (t.add l x).linkAt k ≠ none) : t.linkAt k ≠ none := by
  unfold add at hk
  split_ifs at hk with h
  · by_cases hkl : k = l
    · subst hkl
      refine absurd (linkAt_eq_none.mpr fun target => ?_) hk
      rw [put_node_self]
      simpa using hx target
    · simpa [linkAt, put_node_of_ne h hkl] using hk
  · exact hk

theorem linkAt_add_link {target : Str} {k : Loc} (hk : (t.add l (.link target)).linkAt k ≠ none) :
    k = l ∨ t.linkAt k ≠ none := by
  unfold add at hk
  split_ifs at hk with h
  · by_cases hkl : k = l
    · exact Or.inl hkl
    · exact Or.inr (by simpa [linkAt, put_node_of_ne h hkl] using hk)
  · exact Or.inr hk

def hasChild (t : Tree) (l : Loc) : Bool :=
  t.dom.any fun k => k ≠ [] ∧ k.dropLast = l ∧ t.node k ≠ none

/-- Remove an entry with nothing beneath it. -/
def cut (t : Tree) (l : Loc) (h : l ≠ [] ∧ t.hasChild l = false) : Tree where
  node := Function.update t.node l none
  dom := t.dom
  root := by rw [Function.update_of_ne (Ne.symm h.1), t.root]
  parent := by
    intro k hk hnode
    have hkl : k ≠ l := by
      rintro rfl
      simp at hnode
    rw [Function.update_of_ne hkl] at hnode
    rw [Function.update_of_ne, t.parent k hk hnode]
    intro he
    have hchild := List.any_eq_false.mp h.2 k (t.mem_dom k hnode)
    simp [hk, he, hnode] at hchild
  mem_dom := by
    intro k hk
    refine t.mem_dom k fun hnone => hk ?_
    by_cases hkl : k = l
    · rw [hkl, Function.update_self]
    · rw [Function.update_of_ne hkl, hnone]

structure Movable (t : Tree) (src dst : Loc) : Prop where
  dst_ne : dst ≠ []
  not_beneath : ¬ src <+: dst
  dir : t.node dst.dropLast = some .dir

def movedNode (t : Tree) (src dst l : Loc) : Option Item :=
  if dst <+: l then t.node (src ++ l.drop dst.length)
  else if src <+: l then none
  else t.node l

theorem movedNode_beneath (t : Tree) (src dst a : Loc) :
    t.movedNode src dst (dst ++ a) = t.node (src ++ a) := by
  simp [movedNode]

theorem movedNode_outside (hsrc : ¬ src <+: l) (hdst : ¬ dst <+: l) :
    t.movedNode src dst l = t.node l := by
  simp [movedNode, hsrc, hdst]

/-- Move what is at `src` to `dst`, with all that is beneath it. -/
def move (t : Tree) (src dst : Loc) (h : t.Movable src dst) : Tree where
  node := t.movedNode src dst
  dom := t.dom ++ (t.dom.filter (src <+: ·)).map fun l => dst ++ l.drop src.length
  root := by
    have hsrc : ¬ src <+: [] := fun hp => h.not_beneath (hp.trans List.nil_prefix)
    rw [movedNode_outside hsrc (fun hp => h.dst_ne (List.prefix_nil.mp hp)), t.root]
  parent := by
    intro l hl hnode
    by_cases hdst : dst <+: l
    · obtain ⟨a, rfl⟩ := hdst
      by_cases ha : a = []
      · subst ha
        rw [List.append_nil, movedNode_outside, h.dir]
        · exact fun hp => h.not_beneath (hp.trans ( List.dropLast_prefix dst))
        · exact not_prefix_dropLast h.dst_ne
      · rw [movedNode_beneath] at hnode
        rw [List.dropLast_append_of_ne_nil ha, movedNode_beneath,
          ← List.dropLast_append_of_ne_nil ha]
        exact t.parent (src ++ a) (by simp [ha]) hnode
    · by_cases hsrc : src <+: l
      · simp [movedNode, hdst, hsrc] at hnode
      · rw [movedNode_outside hsrc hdst] at hnode
        rw [movedNode_outside fun hp => hsrc (hp.trans ( List.dropLast_prefix l)),
          t.parent l hl hnode]
        exact fun hp => hdst (hp.trans ( List.dropLast_prefix l))
  mem_dom := by
    intro l hnode
    by_cases hdst : dst <+: l
    · obtain ⟨a, rfl⟩ := hdst
      rw [movedNode_beneath] at hnode
      have hmem := t.mem_dom (src ++ a) hnode
      refine List.mem_append_right _ (List.mem_map.mpr ⟨src ++ a, ?_, by simp⟩)
      simpa using hmem
    · by_cases hsrc : src <+: l
      · simp [movedNode, hdst, hsrc] at hnode
      · rw [movedNode_outside hsrc hdst] at hnode
        exact List.mem_append_left _ (t.mem_dom l hnode)

/-! ## The calls -/

/-- Follow a path with all links. -/
def lookup (t : Tree) (names : Loc) : Except Errno Loc := t.walk 40 [] (names.map Name.val)

/-- The entry that a path names; a link there is not followed. -/
def entry (t : Tree) (names : Loc) : Except Errno Loc :=
  match names.getLast? with
  | none => .error .busy
  | some n =>
      match t.lookup names.dropLast with
      | .error e => .error e
      | .ok d => if t.node d = some .dir then .ok (d ++ [n]) else .error .notdir

def evalSymlinks (t : Tree) (path : Str) : Except Errno Str :=
  (t.walk 255 [] ((locate path).map Name.val)).map Loc.path

def stat (t : Tree) (path : Str) : Except Errno Loc := t.lookup (locate path)

def mkdir (t : Tree) (names : Loc) : Except Errno Unit × Tree :=
  match t.entry names with
  | .error e => (.error e, t)
  | .ok l =>
      if h : t.node l = none ∧ t.Room l then (.ok (), t.put l .dir h.2) else (.error .exist, t)

/-- Make the missing directories on the way down from the path `k`. -/
def mkdirs : Tree → Loc → Loc → Except Errno Unit × Tree
  | t, _, [] => (.ok (), t)
  | t, k, n :: rest =>
      match t.lookup (k ++ [n]) with
      | .ok l =>
          if t.node l = some .dir then mkdirs t (k ++ [n]) rest else (.error .notdir, t)
      | .error _ =>
          match t.mkdir (k ++ [n]) with
          | (.error e, t') => (.error e, t')
          | (.ok _, t') => mkdirs t' (k ++ [n]) rest

def mkdirAll (t : Tree) (path : Str) : Except Errno Unit × Tree := t.mkdirs [] (locate path)

/-- A temporary file: where it is, and the name it was opened with. -/
structure Temp where
  loc : Loc
  name : Str

def createTemp (t : Tree) (rand dir pre : Str) : Except Errno Temp × Tree :=
  if hname : IsName (pre ++ rand) then
    match t.entry (locate dir ++ [⟨pre ++ rand, hname⟩]) with
    | .error e => (.error e, t)
    | .ok l =>
        if h : t.node l = none ∧ t.Room l then
          (.ok ⟨l, FS.joinPath dir (pre ++ rand)⟩, t.put l (.file []) h.2)
        else (.error .exist, t)
  else (.error .inval, t)

/-- Write to an open file that nobody has moved. -/
def write (t : Tree) (l : Loc) (content : Str) : Tree := t.add l (.file content)

def openFile (t : Tree) (path : Str) : Except Errno Item :=
  match t.stat path with
  | .error e => .error e
  | .ok l =>
      match t.node l with
      | none => .error .noent
      | some x => .ok x

/-- `os.Rename`, which refuses to replace a directory. -/
def rename (t : Tree) (old new : Str) : Except Errno Unit × Tree :=
  match t.entry (locate old), t.entry (locate new) with
  | .error e, _ => (.error e, t)
  | _, .error e => (.error e, t)
  | .ok src, .ok dst =>
      if t.node src = none then (.error .noent, t)
      else if hdst : t.node dst = some .dir then (.error .exist, t)
      else if src = dst then (.ok (), t)
      else if hsub : src <+: dst then (.error .inval, t)
      else if hdir : t.node dst.dropLast = some .dir then
        if t.node src = some .dir ∧ t.node dst ≠ none then (.error .notdir, t)
        else (.ok (), t.move src dst ⟨fun hnil => hdst (hnil ▸ t.root), hsub, hdir⟩)
      else (.error .noent, t)

def remove (t : Tree) (path : Str) : Except Errno Unit × Tree :=
  match t.entry (locate path) with
  | .error e => (.error e, t)
  | .ok l =>
      if t.node l = none then (.error .noent, t)
      else if h : l ≠ [] ∧ t.hasChild l = false then (.ok (), t.cut l h)
      else (.error .notempty, t)

/-! ## Looking up -/

section

variable {k d : Loc} {n : Name}

theorem lookup_iff {names : Loc} :
    t.lookup names = .ok l ↔ ∃ k, k ≤ 40 ∧ t.Walks k [] (names.map Name.val) l :=
  walk_ok_iff

/-- The names lead to `q`, over no more links than `EvalSymlinks` follows. -/
def Resolves (t : Tree) (names q : Loc) : Prop :=
  ∃ k, k ≤ 255 ∧ t.Walks k [] (names.map Name.val) q

theorem Resolves.leads {names q : Loc} (h : t.Resolves names q) :
    t.Leads [] (names.map Name.val) q := by
  obtain ⟨_, _, hwalks⟩ := h
  exact hwalks.leads

theorem Resolves.unique {names q q' : Loc} (h : t.Resolves names q) (h' : t.Resolves names q') :
    q = q' :=
  h.leads.unique h'.leads

/-- What is resolved is a directory or a file. -/
theorem Resolves.node {names q : Loc} (h : t.Resolves names q) :
    t.node q ≠ none ∧ t.linkAt q = none := by
  obtain ⟨_, _, hwalks⟩ := h
  rcases hwalks.end_node t.root with hdir | ⟨_, hfile⟩
  · simp [linkAt, hdir]
  · simp [linkAt, hfile]

theorem evalSymlinks_iff {path p : Str} :
    t.evalSymlinks path = .ok p ↔ ∃ q, t.Resolves (locate path) q ∧ p = q.path := by
  unfold evalSymlinks
  constructor
  · intro h
    cases hwalk : t.walk 255 [] ((locate path).map Name.val) with
    | error e =>
      rw [hwalk] at h
      cases h
    | ok q =>
      rw [hwalk] at h
      cases h
      exact ⟨q, walk_sound hwalk, rfl⟩
  · rintro ⟨q, ⟨k, hk, hwalks⟩, rfl⟩
    rw [hwalks.walk hk]
    rfl

theorem lookup_leads {names : Loc} (h : t.lookup names = .ok l) :
    t.Leads [] (names.map Name.val) l := by
  obtain ⟨_, _, hwalks⟩ := lookup_iff.mp h
  exact hwalks.leads

theorem lookup_self (h : t.node l = some .dir ∨ ∃ content, t.node l = some (.file content)) :
    t.lookup l = .ok l :=
  lookup_iff.mpr ⟨0, Nat.zero_le _, walks_self h⟩

theorem lookup_extend (hext : t.Extends t') {names : Loc} (h : t.lookup names = .ok l) :
    t'.lookup names = .ok l := by
  obtain ⟨k, hk, hwalks⟩ := lookup_iff.mp h
  exact lookup_iff.mpr ⟨k, hk, hwalks.extend hext⟩

/-- Over one more name. -/
theorem lookup_concat (h : t.lookup k = .ok d) (hd : t.node d = some .dir)
    (hn : t.node (d ++ [n]) = some .dir ∨ ∃ content, t.node (d ++ [n]) = some (.file content)) :
    t.lookup (k ++ [n]) = .ok (d ++ [n]) := by
  obtain ⟨j, hj, hwalks⟩ := lookup_iff.mp h
  refine lookup_iff.mpr ⟨j, hj, ?_⟩
  rw [List.map_append]
  exact hwalks.append hd (walks_name hn)

/-- A walk over a last name goes through the directory of that name. -/
theorem Walks.of_concat {j : Nat} (h : t.Walks j [] ((k ++ [n]).map Name.val) l) :
    ∃ d j₁ j₂, t.Walks j₁ [] (k.map Name.val) d ∧ t.node d = some .dir ∧
      t.Walks j₂ d [n.val] l ∧ j = j₁ + j₂ := by
  rw [List.map_append] at h
  obtain ⟨d, j₁, j₂, h₁, h₂, hj, hd⟩ := h.split t.root rfl
  exact ⟨d, j₁, j₂, h₁, hd (by simp), h₂, hj⟩

/-- Nothing is found at a name that is not there. -/
theorem not_walks_missing {j : Nat} (h : t.Leads [] (k.map Name.val) d)
    (hn : t.node (d ++ [n]) = none) : ¬ t.Walks j [] ((k ++ [n]).map Name.val) l := by
  intro hwalks
  obtain ⟨d', j₁, j₂, h₁, _, h₂, _⟩ := hwalks.of_concat
  obtain rfl := h.unique h₁.leads
  rcases h₂.of_name with ⟨rfl, _, hthere⟩ | hlink
  · exact hthere hn
  · simp [linkAt, hn] at hlink

theorem entry_iff {names : Loc} : t.entry names = .ok l ↔
    ∃ k n d, names = k ++ [n] ∧ t.lookup k = .ok d ∧ t.node d = some .dir ∧ l = d ++ [n] := by
  rcases List.eq_nil_or_concat' names with rfl | ⟨k, n, rfl⟩
  · simp [entry]
  · unfold entry
    rw [List.getLast?_concat, List.dropLast_concat]
    dsimp only
    constructor
    · intro h
      split at h
      · cases h
      · rename_i d hd
        split at h
        · rename_i hdir
          cases h
          exact ⟨k, n, d, rfl, hd, hdir, rfl⟩
        · cases h
    · rintro ⟨k', n', d, hk, hd, hdir, rfl⟩
      obtain ⟨rfl, hn⟩ := List.append_inj' hk rfl
      cases hn
      rw [hd]
      dsimp only
      rw [if_pos hdir]

theorem room_of_dir (hd : t.node d = some .dir) (hn : t.node (d ++ [n]) ≠ some .dir) :
    t.Room (d ++ [n]) :=
  ⟨by simp, by rwa [List.dropLast_concat], hn⟩

/-- Nothing stands beneath what is not a directory. -/
theorem node_child (hd : t.node d ≠ some .dir) (n : Name) : t.node (d ++ [n]) = none := by
  by_contra hthere
  exact hd (dir_of_child hthere)

end

theorem node_beneath (hl : t.node l ≠ some .dir) {k : Loc} (hk : l <+: k) (hne : k ≠ l) :
    t.node k = none := by
  induction k using List.reverseRecOn with
  | nil => exact absurd (List.prefix_nil.mp hk).symm hne
  | append_singleton k n ih =>
    rcases List.prefix_concat_iff.mp hk with he | hk
    · exact absurd he.symm hne
    · by_cases hkl : k = l
      · exact node_child (hkl ▸ hl) n
      · exact node_child (by simp [ih hk hkl]) n

/-! ## New directories -/

/-- Only directories are new, on the way to `l`. -/
def Grows (t : Tree) (l : Loc) (t' : Tree) : Prop :=
  ∀ k, t'.node k = t.node k ∨ (t.node k = none ∧ t'.node k = some .dir ∧ k <+: l)

theorem Grows.refl (t : Tree) (l : Loc) : t.Grows l t := fun _ => Or.inl rfl

theorem Grows.node (h : t.Grows l t') {k : Loc} (hk : t.node k ≠ none) : t'.node k = t.node k :=
  (h k).resolve_right fun hnew => hk hnew.1

theorem Grows.extends (h : t.Grows l t') : t.Extends t' := by
  intro k x hk
  refine ⟨x, (h.node (by simp [hk])).trans hk, ?_⟩
  cases x <;> simp [Item.Like]

theorem Grows.linkAt (h : t.Grows l t') (k : Loc) : t'.linkAt k = t.linkAt k := by
  rcases h k with hsame | ⟨hnone, hdir, _⟩
  · simp [Tree.linkAt, hsame]
  · simp [Tree.linkAt, hnone, hdir]

/-- What `mkdir` does at a free name. -/
theorem mkdir_free {k d : Loc} {n : Name} (hk : t.lookup k = .ok d) (hd : t.node d = some .dir)
    (hn : t.node (d ++ [n]) = none) :
    ∃ t', t.mkdir (k ++ [n]) = (.ok (), t') ∧ t.Grows (d ++ [n]) t' ∧
      t'.lookup (k ++ [n]) = .ok (d ++ [n]) ∧ t'.node (d ++ [n]) = some .dir ∧
      ∀ m, t'.node (d ++ [n] ++ [m]) = none := by
  have hroom : t.Room (d ++ [n]) := room_of_dir hd (by simp [hn])
  have hentry : t.entry (k ++ [n]) = .ok (d ++ [n]) := entry_iff.mpr ⟨k, n, d, rfl, hk, hd, rfl⟩
  have hself : (t.put (d ++ [n]) .dir hroom).node (d ++ [n]) = some .dir := put_node_self hroom
  have hgrows : t.Grows (d ++ [n]) (t.put (d ++ [n]) .dir hroom) := by
    intro p
    by_cases hp : p = d ++ [n]
    · subst hp
      exact Or.inr ⟨hn, hself, List.prefix_rfl⟩
    · exact Or.inl (put_node_of_ne hroom hp)
  refine ⟨t.put (d ++ [n]) .dir hroom, ?_, hgrows, ?_, hself, fun m => ?_⟩
  · unfold mkdir
    rw [hentry]
    dsimp only
    rw [dif_pos ⟨hn, hroom⟩]
  · have hd' := (hgrows.node (by simp [hd])).trans hd
    exact lookup_concat (lookup_extend hgrows.extends hk) hd' (Or.inl hself)
  · rw [put_node_of_ne hroom (by simp)]
    exact node_child (by simp [hn]) m

theorem mkdir_cases {k d : Loc} {n : Name} (hk : t.lookup k = .ok d) :
    (∃ e, t.mkdir (k ++ [n]) = (.error e, t)) ∨ t.node (d ++ [n]) = none := by
  unfold mkdir
  split
  · exact Or.inl ⟨_, rfl⟩
  · rename_i l hentry
    obtain ⟨k', n', d', hkn, hk', _, rfl⟩ := entry_iff.mp hentry
    obtain ⟨rfl, hn⟩ := List.append_inj' hkn rfl
    cases hn
    cases hk.symm.trans hk'
    split_ifs with hfree
    · exact Or.inr hfree.1
    · exact Or.inl ⟨_, rfl⟩

theorem lookup_missing {k d : Loc} {n : Name} (hk : t.lookup k = .ok d)
    (hn : t.node (d ++ [n]) = none) : ∃ e, t.lookup (k ++ [n]) = .error e := by
  cases h : t.lookup (k ++ [n]) with
  | error e => exact ⟨e, rfl⟩
  | ok l =>
    obtain ⟨j, _, hwalks⟩ := lookup_iff.mp h
    exact absurd hwalks (not_walks_missing (lookup_leads hk) hn)

theorem Grows.trans {k : Loc} {t'' : Tree} (h : t.Grows l t') (h' : t'.Grows k t'')
    (hlk : l <+: k) : t.Grows k t'' := by
  intro p
  rcases h' p with hsame' | ⟨hnew', hp', hpre'⟩
  · rcases h p with hsame | ⟨hnew, hp, hpre⟩
    · exact Or.inl (hsame'.trans hsame)
    · exact Or.inr ⟨hnew, hsame'.trans hp, hpre.trans hlk⟩
  · refine Or.inr ⟨?_, hp', hpre'⟩
    by_contra hthere
    exact hthere ((h.node hthere).symm.trans hnew')

/-- Where the first name is free, all directories on the way are made. -/
theorem mkdirs_free {k d : Loc} {n : Name} (rest : Loc) (hk : t.lookup k = .ok d)
    (hd : t.node d = some .dir) (hn : t.node (d ++ [n]) = none) :
    ∃ l t', t.mkdirs k (n :: rest) = (.ok (), t') ∧ d ++ [n] <+: l ∧
      t'.lookup (k ++ n :: rest) = .ok l ∧ t'.node l = some .dir ∧ t.Grows l t' ∧
      ∀ m, t'.node (l ++ [m]) = none := by
  induction rest generalizing t k d n with
  | nil =>
    obtain ⟨e, he⟩ := lookup_missing hk hn
    obtain ⟨t', hmkdir, hgrows, hlookup, hdir, hempty⟩ := mkdir_free hk hd hn
    refine ⟨d ++ [n], t', ?_, List.prefix_rfl, hlookup, hdir, hgrows, hempty⟩
    rw [mkdirs, he]
    dsimp only
    rw [hmkdir]
    rfl
  | cons m rest ih =>
    obtain ⟨e, he⟩ := lookup_missing hk hn
    obtain ⟨t₁, hmkdir, hgrows, hlookup, hdir, hempty⟩ := mkdir_free hk hd hn
    obtain ⟨l, t', hmkdirs, hpre, hlookup', hdir', hgrows', hempty'⟩ := ih hlookup hdir (hempty m)
    rw [List.append_assoc, List.singleton_append] at hlookup'
    have hdn : d ++ [n] <+: l := (List.prefix_append _ _).trans hpre
    refine ⟨l, t', ?_, hdn, hlookup', hdir', hgrows.trans hgrows' hdn, hempty'⟩
    rw [mkdirs, he]
    dsimp only
    rw [hmkdir]
    exact hmkdirs

/-- `MkdirAll` fails and makes nothing, or the path leads to a directory afterwards. If
something was made, then that directory is new and empty. -/
theorem mkdirs_spec {k d : Loc} (rest : Loc) (hk : t.lookup k = .ok d)
    (hd : t.node d = some .dir) : (∃ e, t.mkdirs k rest = (.error e, t)) ∨
      ∃ l t', t.mkdirs k rest = (.ok (), t') ∧ t'.lookup (k ++ rest) = .ok l ∧
        t'.node l = some .dir ∧ t.Grows l t' ∧ (t' = t ∨ ∀ m, t'.node (l ++ [m]) = none) := by
  induction rest generalizing k d with
  | nil => exact Or.inr ⟨d, t, rfl, by simpa using hk, hd, .refl t d, Or.inl rfl⟩
  | cons n rest ih =>
    cases hlookup : t.lookup (k ++ [n]) with
    | ok l =>
      rw [mkdirs, hlookup]
      dsimp only
      split_ifs with hdir
      · have hrest := ih hlookup hdir
        rwa [List.append_assoc, List.singleton_append] at hrest
      · exact Or.inl ⟨_, rfl⟩
    | error e =>
      rcases mkdir_cases (n := n) hk with ⟨e', hmkdir⟩ | hnone
      · refine Or.inl ⟨e', ?_⟩
        rw [mkdirs, hlookup]
        dsimp only
        rw [hmkdir]
      · obtain ⟨l, t', hmkdirs, _, hlookup', hdir, hgrows, hempty⟩ := mkdirs_free rest hk hd hnone
        exact Or.inr ⟨l, t', hmkdirs, hlookup', hdir, hgrows, Or.inr hempty⟩

theorem mkdirAll_spec (t : Tree) (path : Str) : (∃ e, t.mkdirAll path = (.error e, t)) ∨
    ∃ l t', t.mkdirAll path = (.ok (), t') ∧ t'.lookup (locate path) = .ok l ∧
      t'.node l = some .dir ∧ t.Grows l t' ∧ (t' = t ∨ ∀ m, t'.node (l ++ [m]) = none) :=
  mkdirs_spec (locate path) (lookup_self (Or.inl t.root)) t.root

theorem mkdirs_there {k : Loc} (rest : Loc) (h : t.node (k ++ rest) = some .dir) :
    t.mkdirs k rest = (.ok (), t) := by
  induction rest generalizing k with
  | nil => rfl
  | cons n rest ih =>
    rw [List.append_cons] at h
    have hdir : t.node (k ++ [n]) = some .dir := by
      by_contra hno
      have hnone := node_beneath hno (List.prefix_append (k ++ [n]) rest) fun he => hno (he ▸ h)
      rw [hnone] at h
      cases h
    rw [mkdirs, lookup_self (Or.inl hdir)]
    dsimp only
    rw [if_pos hdir]
    exact ih h

/-- Where a directory stands, nothing is made. -/
theorem mkdirAll_there (h : t.node l = some .dir) : t.mkdirAll l.path = (.ok (), t) := by
  rw [mkdirAll, locate_path]
  exact mkdirs_there l h

/-! ## What the other calls can do -/

/-- A temporary file is made if its name is free. -/
theorem createTemp_free {k d : Loc} {m : Name} {rand pre : Str} (hk : t.lookup k = .ok d)
    (hd : t.node d = some .dir) (hm : m.val = pre ++ rand) (hfree : t.node (d ++ [m]) = none) :
    ∃ h, t.createTemp rand k.path pre =
      (.ok ⟨d ++ [m], FS.joinPath k.path m.val⟩, t.put (d ++ [m]) (.file []) h) := by
  have hroom : t.Room (d ++ [m]) := room_of_dir hd (by simp [hfree])
  have hname : IsName (pre ++ rand) := hm ▸ m.isName
  obtain rfl : m = ⟨pre ++ rand, hname⟩ := Name.ext hm
  have hentry : t.entry (k ++ [⟨pre ++ rand, hname⟩]) = .ok (d ++ [⟨pre ++ rand, hname⟩]) :=
    entry_iff.mpr ⟨k, _, d, rfl, hk, hd, rfl⟩
  refine ⟨hroom, ?_⟩
  unfold createTemp
  rw [dif_pos hname, locate_path, hentry]
  dsimp only
  rw [dif_pos ⟨hfree, hroom⟩]

theorem createTemp_cases (t : Tree) (rand dir pre : Str) :
    (∃ e, t.createTemp rand dir pre = (.error e, t)) ∨
      ∃ (m : Name) (d : Loc) (h : t.Room (d ++ [m])), m.val = pre ++ rand ∧
        t.lookup (locate dir) = .ok d ∧ t.node d = some .dir ∧ t.node (d ++ [m]) = none ∧
        t.createTemp rand dir pre =
          (.ok ⟨d ++ [m], FS.joinPath dir m.val⟩, t.put (d ++ [m]) (.file []) h) := by
  unfold createTemp
  split_ifs with hname
  · split
    · exact Or.inl ⟨_, rfl⟩
    · rename_i l hentry
      obtain ⟨k, m, d, hk, hlookup, hd, rfl⟩ := entry_iff.mp hentry
      obtain ⟨rfl, hm⟩ := List.append_inj' hk rfl
      cases hm
      split_ifs with hfree
      · exact Or.inr ⟨_, d, hfree.2, rfl, hlookup, hd, hfree.1, rfl⟩
      · exact Or.inl ⟨_, rfl⟩
  · exact Or.inl ⟨_, rfl⟩

theorem rename_cases (t : Tree) (old new : Str) : (∃ e, t.rename old new = (.error e, t)) ∨
    ∃ src dst, t.entry (locate old) = .ok src ∧ t.entry (locate new) = .ok dst ∧
      t.node src ≠ none ∧ t.node dst ≠ some .dir ∧
      ((src = dst ∧ t.rename old new = (.ok (), t)) ∨
        (src ≠ dst ∧ ∃ h, t.rename old new = (.ok (), t.move src dst h))) := by
  generalize hrun : t.rename old new = ran
  unfold rename at hrun
  split at hrun
  · exact Or.inl ⟨_, hrun.symm⟩
  · exact Or.inl ⟨_, hrun.symm⟩
  · rename_i src dst hsrc hdst
    split_ifs at hrun with hnone hdir hsame hsub hparent
    · exact Or.inl ⟨_, hrun.symm⟩
    · exact Or.inl ⟨_, hrun.symm⟩
    · exact Or.inr ⟨src, dst, hsrc, hdst, hnone, hdir, Or.inl ⟨hsame, hrun.symm⟩⟩
    · exact Or.inl ⟨_, hrun.symm⟩
    · exact Or.inl ⟨_, hrun.symm⟩
    · exact Or.inr ⟨src, dst, hsrc, hdst, hnone, hdir, Or.inr ⟨hsame, _, hrun.symm⟩⟩
    · exact Or.inl ⟨_, hrun.symm⟩

/-- Nothing is renamed to the root. -/
theorem rename_root (t : Tree) (old : Str) {new : Str} (h : locate new = []) :
    ∃ e, t.rename old new = (.error e, t) := by
  rcases t.rename_cases old new with herr | ⟨_, dst, _, hdst, _⟩
  · exact herr
  · rw [h] at hdst
    cases hdst

theorem remove_cases (t : Tree) (path : Str) : (∃ e, t.remove path = (.error e, t)) ∨
    ∃ l h, t.entry (locate path) = .ok l ∧ t.remove path = (.ok (), t.cut l h) := by
  unfold remove
  split
  · exact Or.inl ⟨_, rfl⟩
  · rename_i l hentry
    split_ifs with hnone hleaf
    · exact Or.inl ⟨_, rfl⟩
    · exact Or.inr ⟨l, hleaf, hentry, rfl⟩
    · exact Or.inl ⟨_, rfl⟩

/-! ## A file through a temporary name -/

theorem cut_node (h : l ≠ [] ∧ t.hasChild l = false) (k : Loc) :
    (t.cut l h).node k = if k = l then none else t.node k := by
  split_ifs with hk
  · subst hk
    exact Function.update_self ..
  · exact Function.update_of_ne hk ..

theorem hasChild_eq_false (h : t.node l ≠ some .dir) : t.hasChild l = false := by
  refine List.any_eq_false.mpr fun k _ => ?_
  simp only [decide_eq_true_eq, not_and, not_not]
  rintro hk rfl
  obtain ⟨d, n, rfl⟩ := (List.eq_nil_or_concat' k).resolve_left hk
  rw [List.dropLast_concat] at h
  exact node_child h n

theorem move_node (hsrc : t.node src ≠ some .dir) (hdst : t.node dst ≠ some .dir)
    (h : t.Movable src dst) (k : Loc) : (t.move src dst h).node k =
      if k = dst then t.node src else if k = src then none else t.node k := by
  show t.movedNode src dst k = _
  by_cases hkd : dst <+: k
  · obtain ⟨a, rfl⟩ := hkd
    rw [movedNode_beneath]
    by_cases ha : a = []
    · simp [ha]
    · have hsrca : t.node (src ++ a) = none :=
        node_beneath hsrc (List.prefix_append _ _) (by simp [ha])
      have hdsta : t.node (dst ++ a) = none :=
        node_beneath hdst (List.prefix_append _ _) (by simp [ha])
      simp [ha, hsrca, hdsta]
  · have hne : k ≠ dst := fun he => hkd (he ▸ List.prefix_rfl)
    by_cases hks : src <+: k
    · have hnode : t.movedNode src dst k = none := by simp [movedNode, hkd, hks]
      rw [hnode, if_neg hne]
      split_ifs with he
      · rfl
      · exact (node_beneath hsrc hks he).symm
    · have hne' : k ≠ src := fun he => hks (he ▸ List.prefix_rfl)
      rw [movedNode_outside hks hkd, if_neg hne, if_neg hne']

section

variable {k d : Loc} {n m : Name} {content name target : Str}

/-- The tree `t'` is `t` with a temporary file in the directory `d`, to which the path `k`
leads. -/
structure HasTemp (t : Tree) (k d : Loc) (m : Name) (content : Str) (t' : Tree) : Prop where
  lookup : t.lookup k = .ok d
  dir : t.node d = some .dir
  free : t.node (d ++ [m]) = none
  file : t'.node (d ++ [m]) = some (.file content)
  same : ∀ l, l ≠ d ++ [m] → t'.node l = t.node l

theorem HasTemp.extends (h : t.HasTemp k d m content t') : t.Extends t' := by
  intro l x hl
  refine ⟨x, (h.same l ?_).trans hl, by cases x <;> simp [Item.Like]⟩
  rintro rfl
  rw [h.free] at hl
  cases hl

theorem HasTemp.dir' (h : t.HasTemp k d m content t') : t'.node d = some .dir := by
  rw [h.same d (by simp), h.dir]

theorem HasTemp.entry (h : t.HasTemp k d m content t') (n : Name) :
    t'.entry (k ++ [n]) = .ok (d ++ [n]) :=
  entry_iff.mpr ⟨k, n, d, rfl, lookup_extend h.extends h.lookup, h.dir', rfl⟩

theorem hasTemp_put (hk : t.lookup k = .ok d) (hd : t.node d = some .dir)
    (hfree : t.node (d ++ [m]) = none) (h : t.Room (d ++ [m])) :
    t.HasTemp k d m content (t.put (d ++ [m]) (.file content) h) where
  lookup := hk
  dir := hd
  free := hfree
  file := put_node_self h
  same _ hl := put_node_of_ne h hl

theorem HasTemp.write (h : t.HasTemp k d m content t') (content' : Str) :
    t.HasTemp k d m content' (t'.write (d ++ [m]) content') := by
  have hroom : t'.Room (d ++ [m]) := room_of_dir h.dir' (by simp [h.file])
  have hwrite : t'.write (d ++ [m]) content' = t'.put (d ++ [m]) (.file content') hroom := by
    unfold Tree.write add
    rw [dif_pos hroom]
  rw [hwrite]
  refine ⟨h.lookup, h.dir, h.free, put_node_self hroom, fun l hl => ?_⟩
  rw [put_node_of_ne hroom hl, h.same l hl]

/-- Without its temporary file, the tree is as it was. -/
theorem HasTemp.remove (h : t.HasTemp k d m content t') (hname : locate name = k ++ [m])
    (l : Loc) : (t'.remove name).2.node l = t.node l := by
  have hleaf : d ++ [m] ≠ [] ∧ t'.hasChild (d ++ [m]) = false :=
    ⟨by simp, hasChild_eq_false (by simp [h.file])⟩
  have hremove : t'.remove name = (.ok (), t'.cut (d ++ [m]) hleaf) := by
    unfold Tree.remove
    rw [hname, h.entry m]
    dsimp only
    rw [if_neg (by simp [h.file]), dif_pos hleaf]
  rw [hremove, cut_node]
  split_ifs with hl
  · rw [hl, h.free]
  · exact h.same l hl

/-- A file has taken the place of a file, or of nothing. -/
theorem extends_replaced {t₄ : Tree} (hl : t.node l ≠ some .dir) (hlink : t.linkAt l = none)
    (hfile : t₄.node l = some (.file content)) (hsame : ∀ k, k ≠ l → t₄.node k = t.node k) :
    t.Extends t₄ := by
  intro k x hk
  by_cases hkl : k = l
  · subst hkl
    refine ⟨_, hfile, ?_⟩
    cases x with
    | dir => exact absurd hk hl
    | file => trivial
    | link target => exact absurd hk (linkAt_eq_none.mp hlink target)
  · exact ⟨x, (hsame k hkl).trans hk, by cases x <;> simp [Item.Like]⟩

/-- The path to the directory does not go through the entry that is replaced, unless that is a
link which the whole path leads through. -/
theorem lookup_replaced {t₄ : Tree} (hk : t.lookup k = .ok d) (hd : t.node d = some .dir)
    (hfail : t.linkAt (d ++ [n]) ≠ none → ∀ q, ¬ t.Resolves (k ++ [n]) q)
    (hn : t.node (d ++ [n]) ≠ some .dir) (hfile : t₄.node (d ++ [n]) = some (.file content))
    (hsame : ∀ l, l ≠ d ++ [n] → t₄.node l = t.node l) : t₄.lookup k = .ok d := by
  by_cases hlink : t.linkAt (d ++ [n]) = none
  · exact lookup_extend (extends_replaced hn hlink hfile hsame) hk
  · obtain ⟨target, htarget⟩ := Option.ne_none_iff_exists'.mp hlink
    obtain ⟨j, hj, hwalks⟩ := lookup_iff.mp hk
    rcases hwalks.without t.root (linkAt_eq_some.mp htarget) hsame with hwalks' | ⟨j', e, hj', he⟩
    · exact lookup_iff.mpr ⟨j, hj, hwalks'⟩
    · refine absurd ⟨j + j', by omega, ?_⟩ (hfail hlink e)
      rw [List.map_append]
      exact hwalks.append hd he

/-- The rename of the temporary file fails, finds it at the target, or puts it there. -/
theorem HasTemp.rename_cases (h : t.HasTemp k d m content t') (hname : locate name = k ++ [m])
    (htarget : locate target = k ++ [n]) :
    (∃ e, t'.rename name target = (.error e, t')) ∨
    (n = m ∧ t'.rename name target = (.ok (), t')) ∨
    ∃ t₄, t'.rename name target = (.ok (), t₄) ∧ n ≠ m ∧ t.node (d ++ [n]) ≠ some .dir ∧
      ∀ l, t₄.node l = if l = d ++ [n] then some (.file content) else t.node l := by
  rcases t'.rename_cases name target with herr | ⟨src, dst, hsrc, hdst, _, hdir, hcases⟩
  · exact Or.inl herr
  · rw [hname, h.entry m] at hsrc
    rw [htarget, h.entry n] at hdst
    cases hsrc
    cases hdst
    rcases hcases with ⟨hsame, heq⟩ | ⟨hne, hm, heq⟩
    · exact Or.inr (Or.inl ⟨by simpa using hsame.symm, heq⟩)
    · have hnd : d ++ [n] ≠ d ++ [m] := fun he => hne he.symm
      have hnm : n ≠ m := fun he => hnd (by rw [he])
      refine Or.inr (Or.inr ⟨_, heq, hnm, ?_, fun l => ?_⟩)
      · rw [← h.same _ hnd]
        exact hdir
      · rw [move_node (by simp [h.file]) hdir, h.file]
        split_ifs with hln hlm
        · rfl
        · rw [hlm, h.free]
        · exact h.same l hlm

/-- **The temporary file is renamed and its name removed.** Either nothing has changed, or the
target holds the content; if the temporary file had the name of the target, it is gone. -/
theorem HasTemp.install (h : t.HasTemp k d m content t') (hname : locate name = k ++ [m])
    (htarget : locate target = k ++ [n])
    (hfail : t.linkAt (d ++ [n]) ≠ none → ∀ q, ¬ t.Resolves (k ++ [n]) q) :
    (((∃ e, (t'.rename name target).1 = .error e) ∨ n = m) ∧
      ∀ l, ((t'.rename name target).2.remove name).2.node l = t.node l) ∨
    (t'.rename name target).1 = .ok () ∧ n ≠ m ∧ t.node (d ++ [n]) ≠ some .dir ∧
      ((t'.rename name target).2.remove name).2.node (d ++ [n]) = some (.file content) ∧
      ∀ l, l ≠ d ++ [n] → ((t'.rename name target).2.remove name).2.node l = t.node l := by
  rcases h.rename_cases hname htarget with ⟨e, heq⟩ | ⟨hnm, heq⟩ | ⟨t₄, heq, hnm, hdir, hnode⟩
  · rw [heq]
    exact Or.inl ⟨Or.inl ⟨e, rfl⟩, h.remove hname⟩
  · rw [heq]
    exact Or.inl ⟨Or.inr hnm, h.remove hname⟩
  · have hfinal : ∀ l, (t₄.remove name).2.node l =
        if l = d ++ [n] then some (.file content) else t.node l := by
      intro l
      rcases t₄.remove_cases name with ⟨e, hrem⟩ | ⟨l', hleaf, hentry, hrem⟩
      · rw [hrem]
        exact hnode l
      · -- if something is removed, it is at the old name
        have hlookup := lookup_replaced h.lookup h.dir hfail hdir ((hnode _).trans (if_pos rfl))
          fun l hl => (hnode l).trans (if_neg hl)
        obtain ⟨k', m', d', hk', hlookup', _, rfl⟩ := entry_iff.mp hentry
        obtain ⟨rfl, hm'⟩ := List.append_inj' (hname.symm.trans hk') rfl
        cases hm'
        cases hlookup.symm.trans hlookup'
        rw [hrem, cut_node, hnode]
        split_ifs with hlm hln hln
        · exact absurd (by simpa using hln.symm.trans hlm) hnm
        · rw [hlm, h.free]
        · rfl
        · rfl
    rw [heq]
    refine Or.inr ⟨rfl, hnm, hdir, (hfinal _).trans (if_pos rfl), fun l hl => ?_⟩
    exact (hfinal l).trans (if_neg hl)

end

end Tree

end FileEngine.Os
