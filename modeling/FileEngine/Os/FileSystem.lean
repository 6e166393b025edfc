import FileEngine.Go.Location
import Mathlib.Data.List.Infix
import Mathlib.Logic.Function.Basic

/-!
# File trees

A file system without symbolic links: directories and regular files at locations. A
file is a number, its inode, and the content is kept by inode, so that an open file can
be written after it was moved. The invariants of a file tree are fields of the
structure: the root is a directory, everything stands in a directory, every inode in
the tree is older than `next` and stands at one place only, and the tree is finite.

Four operations build new trees: `insert` adds a directory or an empty file, `write`
changes the content of an inode, `prune` removes a set of locations, and `rename` moves
a subtree. `look` is what is seen at a location; the `look_` theorems say where an
operation changes it.
-/

namespace FileEngine.Os

open Go

inductive Node
  | dir
  | file (ino : Nat)
deriving DecidableEq

structure FS where
  node : Loc → Option Node
  data : Nat → Str
  next : Nat
  dom : List Loc
  root : node [] = some .dir
  parent : ∀ l, l ≠ [] → node l ≠ none → node l.dropLast = some .dir
  fresh : ∀ l i, node l = some (.file i) → i < next
  single : ∀ l k i, node l = some (.file i) → node k = some (.file i) → l = k
  mem_dom : ∀ l, node l ≠ none → l ∈ dom

/-- What is seen at a location. -/
inductive Entry
  | dir
  | file (content : Str)
deriving DecidableEq

def FS.look (t : FS) (l : Loc) : Option Entry :=
  match t.node l with
  | none => none
  | some .dir => some .dir
  | some (.file i) => some (.file (t.data i))

namespace FS

/-- Nothing but the root. -/
def empty : FS where
  node l := if l = [] then some .dir else none
  data _ := []
  next := 0
  dom := [[]]
  root := rfl
  parent l hl hnode := by simp [hl] at hnode
  fresh l i hi := by split at hi <;> cases hi
  single l k i hl _ := by split at hl <;> cases hl
  mem_dom l hnode := by by_cases h : l = [] <;> simp_all

variable {t : FS} {l k : Loc}

theorem look_eq_none : t.look l = none ↔ t.node l = none := by
  unfold look
  split <;> simp_all

theorem look_eq_dir : t.look l = some .dir ↔ t.node l = some .dir := by
  unfold look
  split <;> simp_all

theorem look_eq_file {content : Str} :
    t.look l = some (.file content) ↔ ∃ i, t.node l = some (.file i) ∧ t.data i = content := by
  unfold look
  split <;> simp_all

theorem look_dir (h : t.node l = some .dir) : t.look l = some .dir := by simp [look, h]

theorem look_of_node {t' : FS} (hnode : t'.node l = t.node l)
    (hdata : ∀ i, t.node l = some (.file i) → t'.data i = t.data i) : t'.look l = t.look l := by
  unfold look
  rw [hnode]
  cases h : t.node l with
  | none => rfl
  | some n =>
    cases n with
    | dir => rfl
    | file i => simp [hdata i h]

/-! ## Adding -/

/-- There is room for a new entry: its directory is there, and it is not. -/
structure Vacant (t : FS) (l : Loc) : Prop where
  ne : l ≠ []
  dir : t.node l.dropLast = some .dir
  new : t.node l = none

/-- Add a directory or an empty file. -/
def insert (t : FS) (l : Loc) (isDir : Bool) (h : t.Vacant l) : FS where
  node := Function.update t.node l (some (if isDir then .dir else .file t.next))
  data := Function.update t.data t.next []
  next := t.next + 1
  dom := l :: t.dom
  root := by rw [Function.update_of_ne (Ne.symm h.ne), t.root]
  parent := by
    intro k hk hnode
    have hlast : k.dropLast ≠ l := by
      intro he
      by_cases hkl : k = l
      · have hlen := congrArg List.length he
        rw [hkl, List.length_dropLast] at hlen
        have := List.length_pos_iff.mpr h.ne
        omega
      · rw [Function.update_of_ne hkl] at hnode
        have hnew := h.new
        rw [← he, t.parent k hk hnode] at hnew
        cases hnew
    rw [Function.update_of_ne hlast]
    by_cases hkl : k = l
    · rw [hkl, h.dir]
    · rw [Function.update_of_ne hkl] at hnode
      exact t.parent k hk hnode
  fresh := by
    intro k i hk
    by_cases hkl : k = l
    · rw [hkl, Function.update_self] at hk
      cases isDir
      · simp only [Bool.false_eq_true, if_false, Option.some.injEq, Node.file.injEq] at hk
        omega
      · simp at hk
    · rw [Function.update_of_ne hkl] at hk
      have := t.fresh k i hk
      omega
  single := by
    have hold : ∀ k i, Function.update t.node l (some (if isDir then .dir else .file t.next)) k =
        some (.file i) → k = l ∧ i = t.next ∨ k ≠ l ∧ t.node k = some (.file i) ∧ i < t.next := by
      intro k i hk
      by_cases hkl : k = l
      · rw [hkl, Function.update_self] at hk
        cases isDir
        · simp only [Bool.false_eq_true, if_false, Option.some.injEq, Node.file.injEq] at hk
          exact Or.inl ⟨hkl, hk.symm⟩
        · simp at hk
      · rw [Function.update_of_ne hkl] at hk
        exact Or.inr ⟨hkl, hk, t.fresh k i hk⟩
    intro k k' i hk hk'
    rcases hold k i hk with ⟨rfl, rfl⟩ | ⟨_, hk, hi⟩ <;>
      rcases hold k' _ hk' with ⟨rfl, hi'⟩ | ⟨_, hk', hi'⟩
    · rfl
    · omega
    · omega
    · exact t.single k k' i hk hk'
  mem_dom := by
    intro k hk
    by_cases hkl : k = l
    · exact hkl ▸ List.mem_cons_self
    · rw [Function.update_of_ne hkl] at hk
      exact List.mem_cons_of_mem _ (t.mem_dom k hk)

theorem look_insert_of_ne {isDir : Bool} {h : t.Vacant l} (hkl : k ≠ l) :
    (t.insert l isDir h).look k = t.look k := by
  refine look_of_node (Function.update_of_ne hkl _ _) fun i hi => ?_
  exact Function.update_of_ne (Nat.ne_of_lt (t.fresh k i hi)) _ _

theorem look_insert_dir {h : t.Vacant l} : (t.insert l true h).look l = some .dir := by
  simp [look, insert]

theorem look_insert_file {h : t.Vacant l} : (t.insert l false h).look l = some (.file []) := by
  simp [look, insert]

/-! ## Writing -/

/-- Give an inode another content. -/
def write (t : FS) (i : Nat) (content : Str) : FS :=
  { t with data := Function.update t.data i content }

/-- The places of an inode in the tree: one at most. -/
def places (t : FS) (i : Nat) : List Loc := t.dom.filter fun l => t.node l = some (.file i)

theorem mem_places {i : Nat} : l ∈ t.places i ↔ t.node l = some (.file i) := by
  simp only [places, List.mem_filter, decide_eq_true_eq]
  exact and_iff_right_of_imp fun h => t.mem_dom l (by simp [h])

theorem look_write {i : Nat} {content : Str} (h : l ∉ t.places i) :
    (t.write i content).look l = t.look l := by
  refine look_of_node rfl fun j hj => Function.update_of_ne ?_ _ _
  rintro rfl
  exact h (mem_places.mpr hj)

/-! ## Removing -/

/-- A set of locations that can be removed: not the root, and with everything that
stands beneath them. -/
structure Prunable (t : FS) (gone : Loc → Bool) : Prop where
  root : gone [] = false
  down : ∀ l, l ≠ [] → gone l.dropLast = true → t.node l ≠ none → gone l = true

/-- Remove a set of locations. -/
def prune (t : FS) (gone : Loc → Bool) (h : t.Prunable gone) : FS where
  node l := if gone l then none else t.node l
  data := t.data
  next := t.next
  dom := t.dom
  root := by simp [h.root, t.root]
  parent := by
    intro l hl hnode
    by_cases hg : gone l = true
    · simp [hg] at hnode
    · simp only [hg, if_false, Bool.false_eq_true] at hnode
      have hlast : ¬ gone l.dropLast = true := fun hlast => hg (h.down l hl hlast hnode)
      simp only [hlast, if_false, Bool.false_eq_true]
      exact t.parent l hl hnode
  fresh := by
    intro l i hl
    split at hl
    · cases hl
    · exact t.fresh l i hl
  single := by
    intro l k i hl hk
    split at hl
    · cases hl
    · split at hk
      · cases hk
      · exact t.single l k i hl hk
  mem_dom := by
    intro l hl
    refine t.mem_dom l fun hnone => hl ?_
    simp [hnone]

theorem look_prune {gone : Loc → Bool} {hp : t.Prunable gone}
    (h : ¬ (gone l = true ∧ t.node l ≠ none)) : (t.prune gone hp).look l = t.look l := by
  have hnode : (t.prune gone hp).node l = t.node l := by
    show (if gone l then none else t.node l) = t.node l
    by_cases hg : gone l = true
    · rw [if_pos hg]
      by_contra hne
      exact h ⟨hg, Ne.symm hne⟩
    · rw [if_neg hg]
  exact look_of_node hnode fun _ _ => rfl

/-! ## Moving -/

/-- What the system checks before it moves `src` to `dst`. -/
structure Movable (t : FS) (src dst : Loc) : Prop where
  dst_ne : dst ≠ []
  not_beneath : ¬ src <+: dst
  dir : t.node dst.dropLast = some .dir

/-- The nodes after the move. -/
def movedNode (t : FS) (src dst l : Loc) : Option Node :=
  if dst <+: l then t.node (src ++ l.drop dst.length)
  else if src <+: l then none
  else t.node l

theorem movedNode_beneath (t : FS) (src dst a : Loc) :
    t.movedNode src dst (dst ++ a) = t.node (src ++ a) := by
  simp [movedNode]

theorem movedNode_outside {src dst : Loc} (hsrc : ¬ src <+: l) (hdst : ¬ dst <+: l) :
    t.movedNode src dst l = t.node l := by
  simp [movedNode, hsrc, hdst]

/-- Where a node after the move was before. -/
theorem movedNode_eq_some {src dst : Loc} {n : Node} (h : t.movedNode src dst l = some n) :
    (∃ a, l = dst ++ a ∧ t.node (src ++ a) = some n) ∨ (¬ src <+: l ∧ t.node l = some n) := by
  by_cases hdst : dst <+: l
  · obtain ⟨a, rfl⟩ := hdst
    exact Or.inl ⟨a, rfl, by rwa [movedNode_beneath] at h⟩
  · by_cases hsrc : src <+: l
    · simp [movedNode, hdst, hsrc] at h
    · rw [movedNode_outside hsrc hdst] at h
      exact Or.inr ⟨hsrc, h⟩

/-- Move the subtree at `src` to `dst`; what was at `dst` is gone. -/
def rename (t : FS) (src dst : Loc) (h : t.Movable src dst) : FS where
  node := t.movedNode src dst
  data := t.data
  next := t.next
  dom := t.dom ++ (t.dom.filter (src <+: ·)).map fun l => dst ++ l.drop src.length
  root := by
    have hsrc : ¬ src <+: [] := fun hp => h.not_beneath (hp.trans List.nil_prefix)
    rw [movedNode_outside hsrc (fun hp => h.dst_ne (List.prefix_nil.mp hp)), t.root]
  parent := by
    intro l hl hnode
    by_cases hdst : dst <+: l
    · obtain ⟨a, rfl⟩ := hdst
      by_cases ha : a = []
      · subst ha
        rw [List.append_nil, movedNode_outside, h.dir]
        · exact fun hp => h.not_beneath (hp.trans ( List.dropLast_prefix dst))
        · intro hp
          have hlen := hp.length_le
          have := List.length_pos_iff.mpr h.dst_ne
          rw [List.length_dropLast] at hlen
          omega
      · rw [movedNode_beneath] at hnode
        rw [List.dropLast_append_of_ne_nil ha, movedNode_beneath,
          ← List.dropLast_append_of_ne_nil ha]
        exact t.parent (src ++ a) (by simp [ha]) hnode
    · by_cases hsrc : src <+: l
      · simp [movedNode, hdst, hsrc] at hnode
      · rw [movedNode_outside hsrc hdst] at hnode
        rw [movedNode_outside fun hp => hsrc (hp.trans ( List.dropLast_prefix l)),
          t.parent l hl hnode]
        exact fun hp => hdst (hp.trans ( List.dropLast_prefix l))
  fresh := by
    intro l i hi
    rcases movedNode_eq_some hi with ⟨a, _, ha⟩ | ⟨_, hl⟩
    · exact t.fresh _ i ha
    · exact t.fresh l i hl
  single := by
    intro l k i hl hk
    rcases movedNode_eq_some hl with ⟨a, rfl, ha⟩ | ⟨hsrc, hl⟩ <;>
      rcases movedNode_eq_some hk with ⟨b, rfl, hb⟩ | ⟨hsrc', hk⟩
    · rw [List.append_cancel_left (t.single _ _ i ha hb)]
    · exact absurd (t.single _ _ i ha hk ▸ List.prefix_append src a) hsrc'
    · exact absurd (t.single _ _ i hb hl ▸ List.prefix_append src b) hsrc
    · exact t.single l k i hl hk
  mem_dom := by
    intro l hnode
    obtain ⟨n, hn⟩ := Option.ne_none_iff_exists'.mp hnode
    rcases movedNode_eq_some hn with ⟨a, rfl, ha⟩ | ⟨_, hl⟩
    · have hmem := t.mem_dom (src ++ a) (by simp [ha])
      refine List.mem_append_right _ (List.mem_map.mpr ⟨src ++ a, ?_, by simp⟩)
      simpa using hmem
    · exact List.mem_append_left _ (t.mem_dom l (by simp [hl]))

/-- Nothing stands beneath what is not a directory. -/
theorem node_beneath (hl : t.node l ≠ some .dir) (hk : l <+: k) (hne : k ≠ l) :
    t.node k = none := by
  induction k using List.reverseRecOn with
  | nil => exact absurd (List.prefix_nil.mp hk).symm hne
  | append_singleton k n ih =>
    by_contra hnode
    have hparent := t.parent (k ++ [n]) (by simp) hnode
    rw [List.dropLast_concat] at hparent
    rcases List.prefix_concat_iff.mp hk with he | hk
    · exact hne he.symm
    · by_cases hkl : k = l
      · exact hl (hkl ▸ hparent)
      · rw [ih hk hkl] at hparent
        cases hparent

/-- Above a directory there are only directories. -/
theorem node_above (hk : t.node k = some .dir) (hl : l <+: k) : t.node l = some .dir := by
  by_cases hkl : k = l
  · exact hkl ▸ hk
  · by_contra hne
    rw [node_beneath hne hl hkl] at hk
    cases hk

/-- A file that is moved to a place without a directory: nothing else is concerned. -/
theorem movedNode_file {src dst : Loc} {i : Nat} (hsrc : t.node src = some (.file i))
    (hdst : t.node dst ≠ some .dir) (hls : l ≠ src) (hld : l ≠ dst) :
    t.movedNode src dst l = t.node l := by
  have hfile : t.node src ≠ some .dir := by simp [hsrc]
  by_cases hbd : dst <+: l
  · obtain ⟨a, rfl⟩ := hbd
    have ha : src ++ a ≠ src := fun he => hld (by simpa using he)
    rw [movedNode_beneath, node_beneath hfile (List.prefix_append _ _) ha,
      node_beneath hdst (List.prefix_append _ _) hld]
  · by_cases hbs : src <+: l
    · rw [node_beneath hfile hbs hls]
      simp [movedNode, hbd, hbs]
    · exact movedNode_outside hbs hbd

theorem look_rename {src dst : Loc} {h : t.Movable src dst} (hsrc : ¬ src <+: l)
    (hdst : ¬ dst <+: l) : (t.rename src dst h).look l = t.look l :=
  look_of_node (movedNode_outside hsrc hdst) fun _ _ => rfl

theorem look_rename_file {src dst : Loc} {h : t.Movable src dst} {i : Nat}
    (hsrc : t.node src = some (.file i)) (hdst : t.node dst ≠ some .dir) (hls : l ≠ src)
    (hld : l ≠ dst) : (t.rename src dst h).look l = t.look l :=
  look_of_node (movedNode_file hsrc hdst hls hld) fun _ _ => rfl

/-- What was beneath the source is beneath the target. -/
theorem look_rename_beneath {src dst : Loc} {h : t.Movable src dst} (a : Loc) :
    (t.rename src dst h).look (dst ++ a) = t.look (src ++ a) := by
  have hnode : (t.rename src dst h).node (dst ++ a) = t.node (src ++ a) :=
    t.movedNode_beneath src dst a
  unfold look
  rw [hnode]
  rfl

theorem look_rename_dst {src dst : Loc} {h : t.Movable src dst} :
    (t.rename src dst h).look dst = t.look src := by
  simpa using look_rename_beneath (h := h) []

/-- Where the file was, there is nothing any more. -/
theorem look_rename_src {src dst : Loc} {h : t.Movable src dst} {i : Nat}
    (hsrc : t.node src = some (.file i)) (hdst : t.node dst ≠ some .dir) :
    (t.rename src dst h).look src = none := by
  have hbeneath : ¬ dst <+: src := by
    intro hpre
    by_cases heq : src = dst
    · exact h.not_beneath (heq ▸ List.prefix_rfl)
    · have hnone := node_beneath hdst hpre heq
      rw [hsrc] at hnone
      cases hnone
  rw [look_eq_none]
  simp [rename, movedNode, hbeneath]

end FS

end FileEngine.Os
