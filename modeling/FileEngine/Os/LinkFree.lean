import FileEngine.Os.Files
import FileEngine.Os.LinkCalls

/-!
# Trees without links

There are two models of the file system: `FS` has inodes and calls that may fail, and `Tree` has
symbolic links. A `Tree` pictures an `FS` if the same is seen at every location; then it has no
links. Every call that does not fail by itself leads from a picture to a picture, and succeeds
in both models or in neither (the `together_` theorems).
-/

namespace FileEngine.Os

open Go

def Entry.item : Entry → Item
  | .dir => .dir
  | .file content => .file content

/-- The tree shows what the file system holds. -/
def Pictures (t : FS) (T : Tree) : Prop := ∀ l, T.node l = (t.look l).map Entry.item

/-- The picture of a file system. -/
def FS.tree (t : FS) : Tree where
  node l := (t.look l).map Entry.item
  dom := t.dom
  root := by rw [FS.look_dir t.root]; rfl
  parent := by
    intro l hl hnode
    rw [FS.look_dir (t.parent l hl fun hnone => hnode (by rw [FS.look_eq_none.mpr hnone]; rfl))]
    rfl
  mem_dom := by
    intro l hnode
    exact t.mem_dom l fun hnone => hnode (by rw [FS.look_eq_none.mpr hnone]; rfl)

theorem pictures_tree (t : FS) : Pictures t t.tree := fun _ => rfl

section

variable {t : FS} {T : Tree} {l k q : Loc}

/-! ## What is seen -/

theorem Pictures.node_none (h : Pictures t T) : T.node l = none ↔ t.node l = none := by
  rw [h l, Option.map_eq_none_iff, FS.look_eq_none]

theorem Pictures.node_dir (h : Pictures t T) : T.node l = some .dir ↔ t.node l = some .dir := by
  rw [h l, ← FS.look_eq_dir]
  cases t.look l with
  | none => simp
  | some x => cases x <;> simp [Entry.item]

theorem Pictures.node_file (h : Pictures t T) {content : Str} :
    T.node l = some (.file content) ↔ t.look l = some (.file content) := by
  rw [h l]
  cases t.look l with
  | none => simp
  | some x => cases x <;> simp [Entry.item]

theorem Pictures.linkAt (h : Pictures t T) (l : Loc) : T.linkAt l = none := by
  refine Tree.linkAt_eq_none.mpr fun target htarget => ?_
  rw [h l] at htarget
  obtain ⟨x, _, hx⟩ := Option.map_eq_some_iff.mp htarget
  cases x <;> cases hx

/-- What is there is a directory or a file. -/
theorem Pictures.there (h : Pictures t T) (hl : t.node l ≠ none) :
    T.node l = some .dir ∨ ∃ content, T.node l = some (.file content) := by
  cases hnode : t.node l with
  | none => exact absurd hnode hl
  | some n =>
    cases n with
    | dir => exact Or.inl (h.node_dir.mpr hnode)
    | file i => exact Or.inr ⟨_, h.node_file.mpr (look_file hnode)⟩

theorem Pictures.walks_iff (h : Pictures t T) {budget : Nat} :
    (∃ j, j ≤ budget ∧ T.Walks j [] (l.map Name.val) q) ↔ q = l ∧ t.node l ≠ none := by
  constructor
  · rintro ⟨j, _, hwalks⟩
    obtain rfl := hwalks.leads.unique (Tree.leads_self fun p _ => h.linkAt p)
    refine ⟨rfl, fun hnone => ?_⟩
    have hend := hwalks.end_node T.root
    rw [h.node_none.mpr hnone] at hend
    simp at hend
  · rintro ⟨rfl, hthere⟩
    exact ⟨0, Nat.zero_le _, Tree.walks_self (h.there hthere)⟩

theorem Pictures.lookup_iff (h : Pictures t T) : T.lookup l = .ok q ↔ q = l ∧ t.node l ≠ none := by
  rw [Tree.lookup_iff, h.walks_iff]

theorem Pictures.evalSymlinks_iff (h : Pictures t T) {path p : Str} :
    T.evalSymlinks path = .ok p ↔ p = (locate path).path ∧ t.node (locate path) ≠ none := by
  rw [Tree.evalSymlinks_iff]
  constructor
  · rintro ⟨q, hq, rfl⟩
    obtain ⟨rfl, hthere⟩ := h.walks_iff.mp hq
    exact ⟨rfl, hthere⟩
  · rintro ⟨rfl, hthere⟩
    exact ⟨_, h.walks_iff.mpr ⟨rfl, hthere⟩, rfl⟩

theorem Pictures.entry_iff (h : Pictures t T) :
    T.entry l = .ok q ↔ q = l ∧ l ≠ [] ∧ t.node l.dropLast = some .dir := by
  rw [Tree.entry_iff]
  constructor
  · rintro ⟨k, n, d, rfl, hk, hd, rfl⟩
    obtain ⟨rfl, _⟩ := h.lookup_iff.mp hk
    exact ⟨rfl, by simp, by simpa using h.node_dir.mp hd⟩
  · rintro ⟨rfl, hl, hdir⟩
    obtain ⟨k, n, rfl⟩ := (List.eq_nil_or_concat' q).resolve_left hl
    rw [List.dropLast_concat] at hdir
    exact ⟨k, n, k, rfl, h.lookup_iff.mpr ⟨rfl, by simp [hdir]⟩, h.node_dir.mpr hdir, rfl⟩

theorem Pictures.lookup_error (h : Pictures t T) (hl : t.node l = none) :
    ∃ e, T.lookup l = .error e := by
  cases hlookup : T.lookup l with
  | error e => exact ⟨e, rfl⟩
  | ok q => exact absurd hl (h.lookup_iff.mp hlookup).2

/-- Where there is no entry to be had, the call on it fails. -/
theorem Pictures.entry_error (h : Pictures t T) (hl : ¬ (l ≠ [] ∧ t.node l.dropLast = some .dir)) :
    ∃ e, T.entry l = .error e := by
  cases hentry : T.entry l with
  | error e => exact ⟨e, rfl⟩
  | ok q => exact absurd (h.entry_iff.mp hentry).2 hl

theorem Pictures.hasChild (h : Pictures t T) : T.hasChild l = t.hasChild l := by
  have hT : T.hasChild l = true ↔ ∃ k, k ≠ [] ∧ k.dropLast = l ∧ t.node k ≠ none := by
    simp only [Tree.hasChild, List.any_eq_true, decide_eq_true_eq, Ne, h.node_none]
    exact ⟨fun ⟨k, _, hk⟩ => ⟨k, hk⟩, fun ⟨k, hk⟩ =>
      ⟨k, T.mem_dom k (mt h.node_none.mp hk.2.2), hk⟩⟩
  have ht : t.hasChild l = true ↔ ∃ k, k ≠ [] ∧ k.dropLast = l ∧ t.node k ≠ none := by
    simp only [FS.hasChild, List.any_eq_true, decide_eq_true_eq, Ne]
    exact ⟨fun ⟨k, _, hk⟩ => ⟨k, hk⟩, fun ⟨k, hk⟩ => ⟨k, t.mem_dom k hk.2.2, hk⟩⟩
  rw [Bool.eq_iff_iff, hT, ht]

/-! ## New pictures -/

theorem Pictures.insert (h : Pictures t T) (isDir : Bool) (hv : t.Vacant l) (hroom : T.Room l) :
    Pictures (t.insert l isDir hv) (T.put l (if isDir then .dir else .file []) hroom) := by
  intro k
  by_cases hk : k = l
  · subst hk
    rw [Tree.put_node_self]
    cases isDir with
    | false => rw [FS.look_insert_file]; rfl
    | true => rw [FS.look_insert_dir]; rfl
  · rw [Tree.put_node_of_ne hroom hk, FS.look_insert_of_ne hk, h k]

theorem Pictures.write (h : Pictures t T) {i : Nat} (hl : t.node l = some (.file i))
    (content : Str) : Pictures (t.write i content) (T.write l content) := by
  have hne : l ≠ [] := by
    rintro rfl
    rw [t.root] at hl
    cases hl
  have hroom : T.Room l :=
    ⟨hne, h.node_dir.mpr (t.parent l hne (by simp [hl])), by simp [h.node_dir, hl]⟩
  intro k
  rw [Tree.write, Tree.add, dif_pos hroom]
  by_cases hk : k = l
  · subst hk
    rw [Tree.put_node_self, look_write_self hl]
    rfl
  · rw [Tree.put_node_of_ne hroom hk, FS.look_write, h k]
    exact fun hplace => hk (t.single k l i (FS.mem_places.mp hplace) hl)

theorem Pictures.cut (h : Pictures t T) (hp : t.Prunable (· = l))
    (hl : l ≠ [] ∧ T.hasChild l = false) : Pictures (t.prune (· = l) hp) (T.cut l hl) := by
  intro k
  rw [Tree.cut_node]
  by_cases hk : k = l
  · have hnone : (t.prune (· = l) hp).node k = none := if_pos (by simpa using hk)
    rw [if_pos hk, FS.look_eq_none.mpr hnone]
    rfl
  · rw [if_neg hk, FS.look_prune (by simp [hk]), h k]

theorem Pictures.move (h : Pictures t T) {src dst : Loc} (hm : t.Movable src dst)
    (hM : T.Movable src dst) : Pictures (t.rename src dst hm) (T.move src dst hM) := by
  intro k
  show T.movedNode src dst k = _
  unfold Tree.movedNode
  by_cases hdst : dst <+: k
  · obtain ⟨a, rfl⟩ := hdst
    rw [if_pos (List.prefix_append dst a), List.drop_left, FS.look_rename_beneath]
    exact h _
  rw [if_neg hdst]
  by_cases hsrc : src <+: k
  · have hnone : (t.rename src dst hm).node k = none :=
      (if_neg hdst).trans (if_pos hsrc)
    rw [if_pos hsrc, FS.look_eq_none.mpr hnone]
    rfl
  · rw [if_neg hsrc, FS.look_rename hsrc hdst]
    exact h k

end

/-! ## Calls that do not fail by themselves -/

/-- Both have a result with `V`, or both have an error with `E`. -/
def Alike {ε ε' α β : Type} (E : ε → ε' → Prop) (V : α → β → Prop) :
    Except ε α → Except ε' β → Prop
  | .ok a, .ok b => V a b
  | .error e, .error e' => E e e'
  | _, _ => False

theorem Alike.mapError {ε ε' η η' α β : Type} {E : ε → ε' → Prop} {E' : η → η' → Prop}
    {V : α → β → Prop} {r : Except ε α} {r' : Except ε' β} (h : Alike E V r r') {f : ε → η}
    {f' : ε' → η'} (hf : ∀ e e', E e e' → E' (f e) (f' e')) :
    Alike E' V (r.mapError f) (r'.mapError f') := by
  cases r with
  | error e =>
    cases r' with
    | error e' => exact hf e e' h
    | ok b => exact h.elim
  | ok a =>
    cases r' with
    | error e' => exact h.elim
    | ok b => exact h

theorem Alike.map {ε ε' α β γ : Type} {E : ε → ε' → Prop} {V : α → β → Prop} {W : γ → β → Prop}
    {r : Except ε α} {r' : Except ε' β} (h : Alike E V r r') {f : α → γ}
    (hf : ∀ a b, V a b → W (f a) b) : Alike E W (r.map f) r' := by
  cases r with
  | error e =>
    cases r' with
    | error e' => exact h
    | ok b => exact h.elim
  | ok a =>
    cases r' with
    | error e' => exact h.elim
    | ok b => exact hf a b h

/-- A call has come out in the same way in both models. What its results have in common may
depend on the file system. -/
def Together {α β : Type} (V : α → β → FS → Prop) (ran : Result α)
    (ran' : Except Errno β × Tree) : Prop :=
  Pictures ran.2.1 ran'.2 ∧ Alike (fun _ _ => True) (fun a b => V a b ran.2.1) ran.1 ran'.1

section

variable {t : FS} {T : Tree} {choice : Choice}

theorem together_mkdirs (h : Pictures t T) {k : Loc} (rest : Loc) (hk : t.node k = some .dir) :
    Together (fun _ _ _ => True) (t.mkdirs none k rest) (T.mkdirs k rest) := by
  induction rest generalizing t T k with
  | nil =>
    unfold FS.mkdirs Tree.mkdirs
    exact ⟨h, trivial⟩
  | cons n rest ih =>
    unfold FS.mkdirs Tree.mkdirs
    dsimp only [Option.map_none]
    by_cases hnew : t.node (k ++ [n]) = none
    · have hv : t.Vacant (k ++ [n]) := ⟨by simp, by simpa using hk, hnew⟩
      have hroom : T.Room (k ++ [n]) :=
        Tree.room_of_dir (h.node_dir.mpr hk) (by simp [h.node_dir, hnew])
      have hentry : T.entry (k ++ [n]) = .ok (k ++ [n]) :=
        h.entry_iff.mpr ⟨rfl, by simp, by simpa using hk⟩
      have hmkdir : T.mkdir (k ++ [n]) = (.ok (), T.put (k ++ [n]) .dir hroom) := by
        rw [Tree.mkdir, hentry]
        exact dif_pos ⟨h.node_none.mpr hnew, hroom⟩
      obtain ⟨e, hlookup⟩ := h.lookup_error hnew
      rw [hlookup, dif_pos hnew, dif_pos hk]
      dsimp only
      rw [hmkdir]
      exact ih (h.insert true hv hroom) (by simp [FS.insert])
    · rw [h.lookup_iff.mpr ⟨rfl, hnew⟩, dif_neg hnew]
      dsimp only
      by_cases hdir : t.node (k ++ [n]) = some .dir
      · rw [if_pos (h.node_dir.mpr hdir), if_pos hdir]
        exact ih h hdir
      · rw [if_neg (mt h.node_dir.mp hdir), if_neg hdir]
        exact ⟨h, trivial⟩

/-- A new and empty file that is open in `t'`, and what the tree knows of it. -/
structure IsTemp (t : FS) (tmp : Handle) (tmp' : Tree.Temp) (t' : FS) : Prop where
  name : tmp.name = tmp'.name
  node : tmp.node = .file t.next
  loc : t'.node tmp'.loc = some (.file t.next)
  empty : t'.data t.next = []
  old : ∀ i < t.next, t'.data i = t.data i

/-- An open file or directory, and what the tree has read of it. -/
inductive IsOpen (t : FS) (input : Handle) : Item → Prop
  | dir : input.node = .dir → IsOpen t input .dir
  | file (i : Nat) : input.node = .file i → i < t.next → IsOpen t input (.file (t.data i))

/-- What a rename in the tree needs to succeed, said of the file system. -/
structure Renames (t : FS) (src dst : Loc) : Prop where
  there : t.node src ≠ none
  not_dir : t.node dst ≠ some .dir
  parent : t.node dst.dropLast = some .dir
  apart : src = dst ∨ ¬ src <+: dst

theorem Pictures.rename_cases (h : Pictures t T) (old new : Str) :
    (∃ e, T.rename old new = (.error e, T)) ∨ Renames t (locate old) (locate new) := by
  refine (T.rename_cases old new).imp_right ?_
  rintro ⟨src, dst, hsrc, hdst, hthere, hdir, hmove⟩
  obtain ⟨rfl, -⟩ := h.entry_iff.mp hsrc
  obtain ⟨rfl, -, hparent⟩ := h.entry_iff.mp hdst
  exact ⟨mt h.node_none.mpr hthere, mt h.node_dir.mpr hdir, hparent,
    hmove.imp (fun hsame => hsame.1) fun ⟨_, hm, _⟩ => hm.not_beneath⟩

variable (h : Pictures t T) (hfault : choice.fault = none)
include h hfault

theorem together_mkdirAll (path : Str) :
    Together (fun _ _ _ => True) (t.mkdirAll choice path) (T.mkdirAll path) := by
  rw [FS.mkdirAll, hfault]
  exact together_mkdirs h (locate path) t.root

theorem together_createTemp (dir pre : Str) :
    Together (IsTemp t) (t.createTemp choice dir pre) (T.createTemp choice.rand dir pre) := by
  unfold FS.createTemp Tree.createTemp
  rw [hfault]
  dsimp only
  by_cases hname : IsName (pre ++ choice.rand)
  · rw [dif_pos hname, dif_pos hname]
    let n : Name := ⟨pre ++ choice.rand, hname⟩
    by_cases hdir : t.node (locate dir) = some .dir
    · have hentry : T.entry (locate dir ++ [n]) = .ok (locate dir ++ [n]) :=
        h.entry_iff.mpr ⟨rfl, by simp, by simpa using hdir⟩
      rw [dif_pos hdir, hentry]
      dsimp only
      by_cases hnew : t.node (locate dir ++ [n]) = none
      · have hroom : T.Room (locate dir ++ [n]) :=
          Tree.room_of_dir (h.node_dir.mpr hdir) (by simp [h.node_dir, hnew])
        have hv : t.Vacant (locate dir ++ [n]) := ⟨by simp, by simpa using hdir, hnew⟩
        rw [dif_pos hnew, dif_pos ⟨h.node_none.mpr hnew, hroom⟩]
        refine ⟨h.insert false hv hroom, rfl, rfl, Function.update_self _ _ _,
          Function.update_self _ _ _, ?_⟩
        exact fun i hi => Function.update_of_ne (Nat.ne_of_lt hi) _ _
      · rw [dif_neg hnew, dif_neg fun hfree => hnew (h.node_none.mp hfree.1)]
        exact ⟨h, trivial⟩
    · obtain ⟨e, hentry⟩ := h.entry_error (l := locate dir ++ [n]) (by simpa using hdir)
      rw [dif_neg hdir, hentry]
      exact ⟨h, trivial⟩
  · rw [dif_neg hname, dif_neg hname]
    exact ⟨h, trivial⟩

theorem together_stat (path : Str) :
    Together (fun _ _ _ => True) (t.openFile choice path) (T.stat path, T) := by
  unfold FS.openFile Tree.stat
  rw [hfault]
  dsimp only
  cases hnode : t.node (locate path) with
  | none =>
    obtain ⟨e, hlookup⟩ := h.lookup_error hnode
    rw [hlookup]
    exact ⟨h, trivial⟩
  | some n =>
    rw [h.lookup_iff.mpr ⟨rfl, by simp [hnode]⟩]
    exact ⟨h, trivial⟩

theorem together_openFile (path : Str) :
    Together (fun input x t' => IsOpen t' input x) (t.openFile choice path)
      (T.openFile path, T) := by
  unfold FS.openFile Tree.openFile Tree.stat
  rw [hfault]
  dsimp only
  cases hnode : t.node (locate path) with
  | none =>
    obtain ⟨e, hlookup⟩ := h.lookup_error hnode
    rw [hlookup]
    exact ⟨h, trivial⟩
  | some n =>
    rw [h.lookup_iff.mpr ⟨rfl, by simp [hnode]⟩]
    dsimp only
    cases n with
    | dir =>
      rw [h.node_dir.mpr hnode]
      exact ⟨h, .dir rfl⟩
    | file i =>
      rw [h.node_file.mpr (look_file hnode)]
      exact ⟨h, .file i rfl (t.fresh _ i hnode)⟩

theorem together_remove (path : Str) :
    Together (fun _ _ _ => True) (t.remove choice path) (T.remove path) := by
  unfold FS.remove Tree.remove
  rw [hfault]
  dsimp only
  by_cases hthere : t.node (locate path) = none
  · rw [if_pos hthere]
    cases hentry : T.entry (locate path) with
    | error e => exact ⟨h, trivial⟩
    | ok q =>
      obtain ⟨rfl, _⟩ := h.entry_iff.mp hentry
      dsimp only
      rw [if_pos (h.node_none.mpr hthere)]
      exact ⟨h, trivial⟩
  · rw [if_neg hthere]
    by_cases hroot : locate path = []
    · obtain ⟨e, hentry⟩ := h.entry_error (l := locate path) (fun hl => hl.1 hroot)
      rw [hentry, dif_pos hroot]
      exact ⟨h, trivial⟩
    · have hentry : T.entry (locate path) = .ok (locate path) :=
        h.entry_iff.mpr ⟨rfl, hroot, t.parent _ hroot hthere⟩
      rw [hentry, dif_neg hroot]
      dsimp only
      rw [if_neg (mt h.node_none.mp hthere)]
      by_cases hchild : t.hasChild (locate path) = true
      · rw [dif_pos hchild, dif_neg (by simp [h.hasChild, hchild])]
        exact ⟨h, trivial⟩
      · have hleaf : locate path ≠ [] ∧ T.hasChild (locate path) = false :=
          ⟨hroot, by simpa [h.hasChild] using hchild⟩
        rw [dif_neg hchild, dif_pos hleaf]
        exact ⟨h.cut (FS.prunable_leaf hroot hchild) hleaf, trivial⟩

theorem together_rename (old new : Str) :
    Together (fun _ _ _ => True) (t.renamePath choice old new) (T.rename old new) := by
  have hfails : ∀ e, ¬ Renames t (locate old) (locate new) →
      Together (α := Unit) (fun _ _ _ => True) (.error e, t, []) (T.rename old new) := by
    intro e hnot
    obtain ⟨e', heq⟩ := (h.rename_cases old new).resolve_right hnot
    rw [heq]
    exact ⟨h, trivial⟩
  have hentry : ∀ {path}, locate path ≠ [] → t.node (locate path).dropLast = some .dir →
      T.entry (locate path) = .ok (locate path) :=
    fun hne hparent => h.entry_iff.mpr ⟨rfl, hne, hparent⟩
  unfold FS.renamePath
  rw [hfault]
  dsimp only
  by_cases hsrc : t.node (locate old) = none
  · rw [if_pos hsrc]
    exact hfails _ fun hmove => hmove.there hsrc
  rw [if_neg hsrc]
  by_cases hdst : t.node (locate new) = some .dir
  · rw [dif_pos hdst]
    exact hfails _ fun hmove => hmove.not_dir hdst
  rw [dif_neg hdst]
  have hnew : locate new ≠ [] := fun hnil => hdst (hnil ▸ t.root)
  by_cases hsame : locate old = locate new
  · have hold := hentry (hsame ▸ hnew) (t.parent _ (hsame ▸ hnew) hsrc)
    rw [if_pos hsame, Tree.rename, ← hsame, hold]
    dsimp only
    rw [if_neg (mt h.node_none.mp hsrc), dif_neg (mt h.node_dir.mp (hsame ▸ hdst)), if_pos rfl]
    exact ⟨h, trivial⟩
  rw [if_neg hsame]
  by_cases hsub : locate old <+: locate new
  · rw [dif_pos hsub]
    exact hfails _ fun hmove => hmove.apart.elim hsame fun hno => hno hsub
  rw [dif_neg hsub]
  by_cases hdir : t.node (locate new).dropLast = some .dir
  · have hne : locate old ≠ [] := fun hnil => hsub (hnil ▸ List.nil_prefix)
    rw [dif_pos hdir, Tree.rename, hentry hne (t.parent _ hne hsrc), hentry hnew hdir]
    dsimp only
    rw [if_neg (mt h.node_none.mp hsrc), dif_neg (mt h.node_dir.mp hdst), if_neg hsame,
      dif_neg hsub, dif_pos (h.node_dir.mpr hdir)]
    by_cases hkind : t.node (locate old) = some .dir ∧ t.node (locate new) ≠ none
    · rw [if_pos hkind, if_pos ⟨h.node_dir.mpr hkind.1, mt h.node_none.mp hkind.2⟩]
      exact ⟨h, trivial⟩
    · rw [if_neg hkind, if_neg fun hboth =>
        hkind ⟨h.node_dir.mp hboth.1, mt h.node_none.mpr hboth.2⟩]
      exact ⟨h.move ⟨hnew, hsub, hdir⟩ ⟨hnew, hsub, h.node_dir.mpr hdir⟩, trivial⟩
  · rw [dif_neg hdir]
    exact hfails _ fun hmove => hdir hmove.parent

end

end FileEngine.Os
