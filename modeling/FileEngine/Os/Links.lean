import FileEngine.Os.Calls
import Mathlib.Data.List.Infix
import Mathlib.Data.Set.Finite.Basic
import Mathlib.Logic.Function.Basic

/-!
# File trees with symbolic links

A tree has directories, files and symbolic links at locations. `walk` follows a path
component by component as the system does, and replaces a link by its target; it stops
with an error at what is missing, at a file with something behind it, and when it has
followed too many links.

* `Walks k cur cs l` says that the components `cs` lead from `cur` to `l` over `k` links;
  `walk_ok_iff` connects it to the function.
* `Leads cur cs l` says where a path leads that need not exist: links are followed, and
  whatever is missing is taken by its name. It looks at the links of the tree only.
-/

namespace FileEngine.Os

open Go

inductive Item
  | dir
  | file (content : Str)
  | link (target : Str)
deriving DecidableEq

structure Tree where
  node : Loc → Option Item
  dom : List Loc
  root : node [] = some .dir
  parent : ∀ l, l ≠ [] → node l ≠ none → node l.dropLast = some .dir
  mem_dom : ∀ l, node l ≠ none → l ∈ dom

/-- A path is followed alike over both. -/
def Item.Like : Item → Item → Prop
  | .dir, .dir => True
  | .file _, .file _ => True
  | .link target, .link target' => target = target'
  | _, _ => False

/-- Where the target of a link in the directory `cur` is read from. -/
def linkStart (cur : Loc) (target : Str) : Loc := if isAbs target then [] else cur

namespace Tree

/-- Nothing but the root. -/
def empty : Tree where
  node l := if l = [] then some .dir else none
  dom := [[]]
  root := rfl
  parent l hl hnode := by simp [hl] at hnode
  mem_dom l hnode := by by_cases h : l = [] <;> simp_all

/-- The target of the link at a location, if there is one. -/
def linkAt (t : Tree) (l : Loc) : Option Str :=
  match t.node l with
  | some (.link target) => some target
  | _ => none

/-- All that is in `t` is in `t'`, up to the contents of files. -/
def Extends (t t' : Tree) : Prop :=
  ∀ l x, t.node l = some x → ∃ y, t'.node l = some y ∧ x.Like y

/-! ## Following a path -/

/-- Follow components from a directory, with `follow` for what comes after a link. -/
def walkWith (t : Tree) (follow : Loc → List Str → Except Errno Loc) :
    Loc → List Str → Except Errno Loc
  | cur, [] => .ok cur
  | cur, c :: cs =>
      if hc : IsName c then
        match t.node (cur ++ [⟨c, hc⟩]) with
        | none => .error .noent
        | some .dir => t.walkWith follow (cur ++ [⟨c, hc⟩]) cs
        | some (.file _) => if cs = [] then .ok (cur ++ [⟨c, hc⟩]) else .error .notdir
        | some (.link target) => follow (linkStart cur target) (comps target ++ cs)
      else t.walkWith follow (cur.enter c) cs

/-- Follow components over at most so many links. -/
def walk (t : Tree) : Nat → Loc → List Str → Except Errno Loc
  | 0 => t.walkWith fun _ _ => .error (.other (str "too many links"))
  | budget + 1 => t.walkWith (t.walk budget)

/-- The components lead from `cur` to `l`, over so many links. -/
inductive Walks (t : Tree) : Nat → Loc → List Str → Loc → Prop
  | done (cur : Loc) : Walks t 0 cur [] cur
  | enter {k : Nat} {cur l : Loc} {c : Str} {cs : List Str} (hc : ¬ IsName c) :
      Walks t k (cur.enter c) cs l → Walks t k cur (c :: cs) l
  | dir {k : Nat} {cur l : Loc} {c : Str} {cs : List Str} (hc : IsName c) :
      t.node (cur ++ [⟨c, hc⟩]) = some .dir → Walks t k (cur ++ [⟨c, hc⟩]) cs l →
      Walks t k cur (c :: cs) l
  | file {cur : Loc} {c content : Str} (hc : IsName c) :
      t.node (cur ++ [⟨c, hc⟩]) = some (.file content) → Walks t 0 cur [c] (cur ++ [⟨c, hc⟩])
  | link {k : Nat} {cur l : Loc} {c target : Str} {cs : List Str} (hc : IsName c) :
      t.node (cur ++ [⟨c, hc⟩]) = some (.link target) →
      Walks t k (linkStart cur target) (comps target ++ cs) l → Walks t (k + 1) cur (c :: cs) l

/-- The components lead from `cur` to `l`, whether there is anything or not. -/
inductive Leads (t : Tree) : Loc → List Str → Loc → Prop
  | done (cur : Loc) : Leads t cur [] cur
  | enter {cur l : Loc} {c : Str} {cs : List Str} (hc : ¬ IsName c) :
      Leads t (cur.enter c) cs l → Leads t cur (c :: cs) l
  | name {cur l : Loc} {c : Str} {cs : List Str} (hc : IsName c) :
      t.linkAt (cur ++ [⟨c, hc⟩]) = none → Leads t (cur ++ [⟨c, hc⟩]) cs l →
      Leads t cur (c :: cs) l
  | link {cur l : Loc} {c target : Str} {cs : List Str} (hc : IsName c) :
      t.linkAt (cur ++ [⟨c, hc⟩]) = some target →
      Leads t (linkStart cur target) (comps target ++ cs) l → Leads t cur (c :: cs) l

section

variable {t t' : Tree} {k k' budget : Nat} {cur l l' d : Loc} {cs ds : List Str}

theorem linkAt_eq_some {target : Str} :
    t.linkAt l = some target ↔ t.node l = some (.link target) := by
  unfold linkAt
  split <;> simp_all

theorem linkAt_eq_none : t.linkAt l = none ↔ ∀ target, t.node l ≠ some (.link target) := by
  unfold linkAt
  split <;> simp_all

@[simp] theorem linkAt_empty (l : Loc) : empty.linkAt l = none := by
  rw [linkAt_eq_none]
  intro target
  show (if l = [] then some Item.dir else none) ≠ _
  split_ifs <;> simp

theorem walksWith_sound {follow : Loc → List Str → Except Errno Loc}
    (hfollow : ∀ cur cs l, follow cur cs = .ok l → ∃ k, k < budget ∧ t.Walks k cur cs l)
    (h : t.walkWith follow cur cs = .ok l) : ∃ k, k ≤ budget ∧ t.Walks k cur cs l := by
  induction cs generalizing cur with
  | nil =>
    cases h
    exact ⟨0, Nat.zero_le _, .done _⟩
  | cons c cs ih =>
    unfold walkWith at h
    split at h
    · rename_i hc
      split at h
      · cases h
      · rename_i hnode
        obtain ⟨k, hk, hwalks⟩ := ih h
        exact ⟨k, hk, .dir hc hnode hwalks⟩
      · rename_i hnode
        split at h
        · rename_i hnil
          cases h
          cases hnil
          exact ⟨0, Nat.zero_le _, .file hc hnode⟩
        · cases h
      · rename_i hnode
        obtain ⟨k, hk, hwalks⟩ := hfollow _ _ _ h
        exact ⟨k + 1, hk, .link hc hnode hwalks⟩
    · rename_i hc
      obtain ⟨k, hk, hwalks⟩ := ih h
      exact ⟨k, hk, .enter hc hwalks⟩

theorem walk_sound (h : t.walk budget cur cs = .ok l) : ∃ k, k ≤ budget ∧ t.Walks k cur cs l := by
  induction budget generalizing cur cs l with
  | zero => exact walksWith_sound (fun _ _ _ hloop => by cases hloop) h
  | succ budget ih =>
    refine walksWith_sound (fun cur cs l hfollow => ?_) h
    obtain ⟨k, hk, hwalks⟩ := ih hfollow
    exact ⟨k, Nat.lt_succ_of_le hk, hwalks⟩

theorem Walks.walkWith {follow : Loc → List Str → Except Errno Loc}
    (h : t.Walks k cur cs l)
    (hfollow : ∀ j cur cs, j + 1 ≤ k → t.Walks j cur cs l → follow cur cs = .ok l) :
    t.walkWith follow cur cs = .ok l := by
  induction h with
  | done cur => rfl
  | enter hc _ ih =>
    unfold Tree.walkWith
    rw [dif_neg hc]
    exact ih hfollow
  | dir hc hnode _ ih =>
    unfold Tree.walkWith
    rw [dif_pos hc, hnode]
    exact ih hfollow
  | file hc hnode =>
    unfold Tree.walkWith
    rw [dif_pos hc, hnode]
    rfl
  | link hc hnode hrest ih =>
    unfold Tree.walkWith
    rw [dif_pos hc, hnode]
    exact hfollow _ _ _ le_rfl hrest

theorem Walks.walk (h : t.Walks k cur cs l) (hk : k ≤ budget) : t.walk budget cur cs = .ok l := by
  induction budget generalizing k cur cs with
  | zero => exact h.walkWith fun j _ _ hj _ => absurd hj (by omega)
  | succ budget ih => exact h.walkWith fun j _ _ hj hrest => ih hrest (by omega)

/-- What the walk returns, over any number of links up to the limit. -/
theorem walk_ok_iff : t.walk budget cur cs = .ok l ↔ ∃ k, k ≤ budget ∧ t.Walks k cur cs l :=
  ⟨walk_sound, fun ⟨_, hk, hwalks⟩ => hwalks.walk hk⟩

/-! ### Pieces of a path -/

theorem dropLast_dir (hcur : t.node cur = some .dir) : t.node cur.dropLast = some .dir := by
  by_cases hroot : cur = []
  · rw [hroot]
    exact t.root
  · exact t.parent cur hroot (by simp [hcur])

theorem enter_dir (hcur : t.node cur = some .dir) {c : Str} (hc : ¬ IsName c) :
    t.node (cur.enter c) = some .dir := by
  unfold Loc.enter
  rw [dif_neg hc]
  split
  · exact dropLast_dir hcur
  · exact hcur

theorem linkStart_dir (hcur : t.node cur = some .dir) (target : Str) :
    t.node (linkStart cur target) = some .dir := by
  unfold linkStart
  split
  · exact t.root
  · exact hcur

/-- A walk ends at a directory or a file. -/
theorem Walks.end_node (h : t.Walks k cur cs l) (hcur : t.node cur = some .dir) :
    t.node l = some .dir ∨ ∃ content, t.node l = some (.file content) := by
  induction h with
  | done cur => exact Or.inl hcur
  | enter hc _ ih => exact ih (enter_dir hcur hc)
  | dir hc hnode _ ih => exact ih hnode
  | file hc hnode => exact Or.inr ⟨_, hnode⟩
  | link hc _ _ ih => exact ih (linkStart_dir hcur _)

theorem Walks.append (h : t.Walks k cur cs d) (hd : t.node d = some .dir)
    (hrest : t.Walks k' d ds l) : t.Walks (k + k') cur (cs ++ ds) l := by
  induction h with
  | done cur => simpa using hrest
  | enter hc _ ih => exact .enter hc (ih hd hrest)
  | dir hc hnode _ ih => exact .dir hc hnode (ih hd hrest)
  | file hc hnode =>
    rw [hnode] at hd
    cases hd
  | @link k cur d c target cs hc hnode _ ih =>
    have hih := ih hd hrest
    rw [List.append_assoc] at hih
    rw [Nat.add_right_comm]
    exact .link hc hnode hih

theorem Walks.split_start {xs : List Str} (h : t.Walks k cur xs l) (hcur : t.node cur = some .dir)
    (hxs : xs = [] ++ ds) : ∃ d k₁ k₂, t.Walks k₁ cur [] d ∧ t.Walks k₂ d ds l ∧ k = k₁ + k₂ ∧
      (ds ≠ [] → t.node d = some .dir) := by
  subst hxs
  exact ⟨cur, 0, k, .done cur, h, (Nat.zero_add k).symm, fun _ => hcur⟩

/-- A walk along two pieces stops between them, at a directory if something is to come. -/
theorem Walks.split {xs : List Str} (h : t.Walks k cur xs l) (hcur : t.node cur = some .dir)
    (hxs : xs = cs ++ ds) : ∃ d k₁ k₂, t.Walks k₁ cur cs d ∧ t.Walks k₂ d ds l ∧ k = k₁ + k₂ ∧
      (ds ≠ [] → t.node d = some .dir) := by
  induction h generalizing cs with
  | done cur =>
    obtain ⟨rfl, rfl⟩ := List.append_eq_nil_iff.mp hxs.symm
    exact ⟨cur, 0, 0, .done cur, .done cur, rfl, fun _ => hcur⟩
  | @enter k cur l c xs hc hwalks ih =>
    cases cs with
    | nil => exact split_start (.enter hc hwalks) hcur hxs
    | cons c' cs =>
      obtain ⟨rfl, rfl⟩ := List.cons_eq_cons.mp hxs
      obtain ⟨d, k₁, k₂, h₁, h₂, hk, hd⟩ := ih (enter_dir hcur hc) rfl
      exact ⟨d, k₁, k₂, .enter hc h₁, h₂, hk, hd⟩
  | @dir k cur l c xs hc hnode hwalks ih =>
    cases cs with
    | nil => exact split_start (.dir hc hnode hwalks) hcur hxs
    | cons c' cs =>
      obtain ⟨rfl, rfl⟩ := List.cons_eq_cons.mp hxs
      obtain ⟨d, k₁, k₂, h₁, h₂, hk, hd⟩ := ih hnode rfl
      exact ⟨d, k₁, k₂, .dir hc hnode h₁, h₂, hk, hd⟩
  | @file cur c content hc hnode =>
    cases cs with
    | nil => exact split_start (.file hc hnode) hcur hxs
    | cons c' cs =>
      obtain ⟨rfl, hrest⟩ := List.cons_eq_cons.mp hxs
      obtain ⟨rfl, rfl⟩ := List.append_eq_nil_iff.mp hrest.symm
      exact ⟨_, 0, 0, .file hc hnode, .done _, rfl, fun hne => absurd rfl hne⟩
  | @link k cur l c target xs hc hnode hwalks ih =>
    cases cs with
    | nil => exact split_start (.link hc hnode hwalks) hcur hxs
    | cons c' cs =>
      obtain ⟨rfl, rfl⟩ := List.cons_eq_cons.mp hxs
      obtain ⟨d, k₁, k₂, h₁, h₂, hk, hd⟩ :=
        ih (linkStart_dir hcur target) (List.append_assoc ..).symm
      exact ⟨d, k₁ + 1, k₂, .link hc hnode h₁, h₂, by omega, hd⟩

/-! ### Where a path leads -/

theorem Walks.leads (h : t.Walks k cur cs l) : t.Leads cur cs l := by
  induction h with
  | done cur => exact .done cur
  | enter hc _ ih => exact .enter hc ih
  | dir hc hnode _ ih => exact .name hc (by simp [linkAt, hnode]) ih
  | file hc hnode => exact .name hc (by simp [linkAt, hnode]) (.done _)
  | link hc hnode _ ih => exact .link hc (linkAt_eq_some.mpr hnode) ih

theorem Leads.unique (h : t.Leads cur cs l) (h' : t.Leads cur cs l') : l = l' := by
  induction h with
  | done cur =>
    cases h'
    rfl
  | enter hc _ ih =>
    cases h' with
    | enter _ h' => exact ih h'
    | name hname => exact absurd hname hc
    | link hname => exact absurd hname hc
  | name hc hnone _ ih =>
    cases h' with
    | enter hname => exact absurd hc hname
    | name _ _ h' => exact ih h'
    | link _ hsome =>
      rw [hnone] at hsome
      cases hsome
  | link hc hsome _ ih =>
    cases h' with
    | enter hname => exact absurd hc hname
    | name _ hnone =>
      rw [hnone] at hsome
      cases hsome
    | link _ hsome' h' =>
      rw [hsome] at hsome'
      cases hsome'
      exact ih h'

theorem Leads.append (h : t.Leads cur cs d) (hrest : t.Leads d ds l) :
    t.Leads cur (cs ++ ds) l := by
  induction h with
  | done cur => exact hrest
  | enter hc _ ih => exact .enter hc (ih hrest)
  | name hc hnone _ ih => exact .name hc hnone (ih hrest)
  | link hc hsome _ ih =>
    have hih := ih hrest
    rw [List.append_assoc] at hih
    exact .link hc hsome hih

theorem Leads.split {xs : List Str} (h : t.Leads cur xs l) (hxs : xs = cs ++ ds) :
    ∃ d, t.Leads cur cs d ∧ t.Leads d ds l := by
  induction h generalizing cs with
  | done cur =>
    obtain ⟨rfl, rfl⟩ := List.append_eq_nil_iff.mp hxs.symm
    exact ⟨cur, .done cur, .done cur⟩
  | @enter cur l c xs hc hleads ih =>
    cases cs with
    | nil =>
      subst hxs
      exact ⟨cur, .done cur, .enter hc hleads⟩
    | cons c' cs =>
      obtain ⟨rfl, rfl⟩ := List.cons_eq_cons.mp hxs
      obtain ⟨d, h₁, h₂⟩ := ih rfl
      exact ⟨d, .enter hc h₁, h₂⟩
  | @name cur l c xs hc hnone hleads ih =>
    cases cs with
    | nil =>
      subst hxs
      exact ⟨cur, .done cur, .name hc hnone hleads⟩
    | cons c' cs =>
      obtain ⟨rfl, rfl⟩ := List.cons_eq_cons.mp hxs
      obtain ⟨d, h₁, h₂⟩ := ih rfl
      exact ⟨d, .name hc hnone h₁, h₂⟩
  | @link cur l c target xs hc hsome hleads ih =>
    cases cs with
    | nil =>
      subst hxs
      exact ⟨cur, .done cur, .link hc hsome hleads⟩
    | cons c' cs =>
      obtain ⟨rfl, rfl⟩ := List.cons_eq_cons.mp hxs
      obtain ⟨d, h₁, h₂⟩ := ih (List.append_assoc ..).symm
      exact ⟨d, .link hc hsome h₁, h₂⟩

/-- Only the links matter. -/
theorem Leads.congr (hlinks : ∀ l, t'.linkAt l = t.linkAt l) (h : t.Leads cur cs l) :
    t'.Leads cur cs l := by
  induction h with
  | done cur => exact .done cur
  | enter hc _ ih => exact .enter hc ih
  | name hc hnone _ ih => exact .name hc ((hlinks _).trans hnone) ih
  | link hc hsome _ ih => exact .link hc ((hlinks _).trans hsome) ih

/-! ### Names -/

theorem walks_name {n : Name} (h : t.node (cur ++ [n]) = some .dir ∨
    ∃ content, t.node (cur ++ [n]) = some (.file content)) :
    t.Walks 0 cur [n.val] (cur ++ [n]) := by
  rcases h with hdir | ⟨content, hfile⟩
  · exact .dir n.isName hdir (.done _)
  · exact .file n.isName hfile

/-- Over one name a walk comes to what stands there, or goes on where a link points. -/
theorem Walks.of_name {n : Name} (h : t.Walks k cur [n.val] l) :
    (l = cur ++ [n] ∧ t.linkAt l = none ∧ t.node l ≠ none) ∨ (t.linkAt (cur ++ [n])).isSome := by
  generalize hcs : [n.val] = cs at h
  cases h with
  | done => cases hcs
  | enter hc =>
    cases hcs
    exact absurd n.isName hc
  | dir hc hnode hrest =>
    cases hcs
    cases hrest
    exact Or.inl ⟨rfl, by simp [linkAt, hnode], by simp [hnode]⟩
  | file hc hnode =>
    cases hcs
    exact Or.inl ⟨rfl, by simp [linkAt, hnode], by simp [hnode]⟩
  | link hc hnode =>
    cases hcs
    exact Or.inr (by simp [linkAt_eq_some.mpr hnode])

theorem Leads.of_name {n : Name} (h : t.Leads cur [n.val] l) :
    (t.linkAt (cur ++ [n]) = none ∧ l = cur ++ [n]) ∨ (t.linkAt (cur ++ [n])).isSome := by
  generalize hcs : [n.val] = cs at h
  cases h with
  | done => cases hcs
  | enter hc =>
    cases hcs
    exact absurd n.isName hc
  | name hc hnone hrest =>
    cases hcs
    cases hrest
    exact Or.inl ⟨hnone, rfl⟩
  | link hc hsome =>
    cases hcs
    exact Or.inr (by simp [hsome])

theorem dir_of_child {d : Loc} {n : Name} (h : t.node (d ++ [n]) ≠ none) :
    t.node d = some .dir := by
  have hparent := t.parent (d ++ [n]) (by simp) h
  rwa [List.dropLast_concat] at hparent

/-- The names of a directory or a file lead to it, over no link. -/
theorem walks_self (h : t.node l = some .dir ∨ ∃ content, t.node l = some (.file content)) :
    t.Walks 0 [] (l.map Name.val) l := by
  induction l using List.reverseRecOn with
  | nil => exact .done []
  | append_singleton l n ih =>
    have hdir : t.node l = some .dir :=
      dir_of_child (n := n) (by rcases h with h | ⟨_, h⟩ <;> simp [h])
    rw [List.map_append]
    exact (ih (Or.inl hdir)).append hdir (walks_name h)

/-- Where there is no link on the way, the names lead where they say. -/
theorem leads_self (h : ∀ p, p <+: l → t.linkAt p = none) : t.Leads [] (l.map Name.val) l := by
  induction l using List.reverseRecOn with
  | nil => exact .done []
  | append_singleton l n ih =>
    rw [List.map_append]
    refine (ih fun p hp => h p (hp.trans (List.prefix_append _ _))).append ?_
    exact .name n.isName (h _ List.prefix_rfl) (.done _)

/-- A name of so many letters, and one. -/
def letters (i : Nat) : Name where
  val := List.replicate (i + 1) 97
  isName := by
    refine ⟨by simp, ?_, ?_, fun h => ?_⟩
    · simp [dot, List.replicate_succ]
    · simp [dotdot, List.replicate_succ]
    · have hslash := List.eq_of_mem_replicate h
      cases hslash

/-- In every directory some name is free, other than a given one. -/
theorem exists_free (t : Tree) (d l : Loc) :
    ∃ n : Name, t.node (d ++ [n]) = none ∧ l ≠ d ++ [n] := by
  have hinj : Function.Injective fun i => d ++ [letters i] := by
    intro i j hij
    have hval : (letters i).val.length = (letters j).val.length := by
      rw [List.singleton_inj.mp (List.append_cancel_left hij)]
    simpa [letters] using hval
  obtain ⟨_, ⟨i, rfl⟩, hfresh⟩ :=
    (Set.infinite_range_of_injective hinj).exists_notMem_finset (l :: t.dom).toFinset
  rw [List.mem_toFinset, List.mem_cons, not_or] at hfresh
  refine ⟨letters i, ?_, Ne.symm hfresh.1⟩
  by_contra hthere
  exact hfresh.2 (t.mem_dom _ hthere)

/-! ### Other trees -/

/-- A walk finds its way in a tree that has at least what this one has. -/
theorem Walks.extend (hext : t.Extends t') (h : t.Walks k cur cs l) : t'.Walks k cur cs l := by
  induction h with
  | done cur => exact .done cur
  | enter hc _ ih => exact .enter hc ih
  | dir hc hnode _ ih =>
    obtain ⟨y, hnode', hlike⟩ := hext _ _ hnode
    cases y with
    | dir => exact .dir hc hnode' ih
    | file => cases hlike
    | link => cases hlike
  | file hc hnode =>
    obtain ⟨y, hnode', hlike⟩ := hext _ _ hnode
    cases y with
    | dir => cases hlike
    | file => exact .file hc hnode'
    | link => cases hlike
  | link hc hnode _ ih =>
    obtain ⟨y, hnode', hlike⟩ := hext _ _ hnode
    cases y with
    | dir => cases hlike
    | file => cases hlike
    | link =>
      cases hlike
      exact .link hc hnode' ih

/-- A walk to a directory does not go through a file. -/
theorem Walks.around (h : t'.Walks k cur cs l) (hl : t'.node l = some .dir) {content : Str}
    (hfile : t'.node d = some (.file content)) (hsame : ∀ p, p ≠ d → t'.node p = t.node p) :
    t.Walks k cur cs l := by
  have hother : ∀ p x, t'.node p = some x → (∀ y, x ≠ .file y) → t.node p = some x := by
    intro p x hp hx
    rw [← hsame p, hp]
    rintro rfl
    rw [hfile] at hp
    cases hp
    exact hx content rfl
  induction h with
  | done cur => exact .done cur
  | enter hc _ ih => exact .enter hc (ih hl)
  | dir hc hnode _ ih => exact .dir hc (hother _ _ hnode (by simp)) (ih hl)
  | file hc hnode =>
    rw [hnode] at hl
    cases hl
  | link hc hnode _ ih => exact .link hc (hother _ _ hnode (by simp)) (ih hl)

/-- If a link is replaced, a walk finds its way without it, or the link itself leads to
something. -/
theorem Walks.without (h : t.Walks k cur cs l) (hcur : t.node cur = some .dir) {n : Name}
    {target : Str} (hlink : t.node (d ++ [n]) = some (.link target))
    (hsame : ∀ p, p ≠ d ++ [n] → t'.node p = t.node p) :
    t'.Walks k cur cs l ∨ ∃ j e, j ≤ k ∧ t.Walks j d [n.val] e := by
  have hother : ∀ p x, t.node p = some x → (∀ y, x ≠ .link y) → t'.node p = some x := by
    intro p x hp hx
    rw [hsame p, hp]
    rintro rfl
    rw [hlink] at hp
    cases hp
    exact hx target rfl
  induction h with
  | done cur => exact Or.inl (.done cur)
  | enter hc _ ih => exact (ih (enter_dir hcur hc)).imp_left (.enter hc)
  | dir hc hnode _ ih => exact (ih hnode).imp_left (.dir hc (hother _ _ hnode (by simp)))
  | file hc hnode => exact Or.inl (.file hc (hother _ _ hnode (by simp)))
  | @link k cur l c target' cs hc hnode hrest ih =>
    by_cases he : cur ++ [⟨c, hc⟩] = d ++ [n]
    · right
      obtain ⟨rfl, hn⟩ := List.append_inj' he rfl
      obtain rfl : c = n.val := congrArg Name.val (List.head_eq_of_cons_eq hn)
      have hwhole : t.Walks (k + 1) cur ([n.val] ++ cs) l := .link hc hnode hrest
      obtain ⟨e, k₁, k₂, h₁, _, hk, _⟩ := hwhole.split hcur rfl
      exact ⟨k₁, e, by omega, h₁⟩
    · rcases ih (linkStart_dir hcur target') with hwalks | ⟨j, e, hj, he'⟩
      · exact Or.inl (.link hc ((hsame _ he).trans hnode) hwalks)
      · exact Or.inr ⟨j, e, by omega, he'⟩

end

end Tree

end FileEngine.Os
