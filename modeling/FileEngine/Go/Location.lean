import FileEngine.Go.Strings
import Mathlib.Data.List.Infix
import Mathlib.Tactic.Common

/-!
# Locations of a rooted name space

A `Name` is a path component that names an entry: it is not empty, not `.` or `..`,
and has no separator. A `Loc` is a list of names read from the root; `l <+: k` says
that `k` is `l` or lies beneath it. The subtype carries the well-formedness, so a
location with a `..` in it cannot be written down.

* `comps` splits a string at the separators (empty components are kept).
* `resolve` walks from the root along a list of components: `..` goes up and stops at
  the root, a name goes down, anything else stays.
* `locate p` is the location that the string `p` denotes when it is read from the
  root, and `Loc.path` is the canonical spelling of a location. `locate_path` says
  that they are inverse to each other.
-/

namespace FileEngine.Go

def dot : Str := [46]

def dotdot : Str := [46, 46]

/-- A component that names an entry of a directory. -/
def IsName (c : Str) : Prop := c ≠ [] ∧ c ≠ dot ∧ c ≠ dotdot ∧ slash ∉ c

instance (c : Str) : Decidable (IsName c) := inferInstanceAs (Decidable (_ ∧ _ ∧ _ ∧ _))

structure Name where
  val : Str
  isName : IsName val
deriving DecidableEq

abbrev Loc := List Name

theorem Name.ext {a b : Name} (h : a.val = b.val) : a = b := by
  cases a
  cases b
  simpa using h

theorem map_val_injective : Function.Injective (List.map Name.val) :=
  List.map_injective_iff.mpr fun _ _ h => Name.ext h

theorem val_prefix_iff {l k : Loc} : l.map Name.val <+: k.map Name.val ↔ l <+: k := by
  constructor
  · intro h
    have htake := List.prefix_iff_eq_take.mp h
    rw [List.length_map, ← List.map_take] at htake
    exact map_val_injective htake ▸ List.take_prefix _ _
  · exact fun h => h.map Name.val

/-! ## Components -/

def comps (p : Str) : List Str := p.splitOn slash

theorem comps_ne_nil (p : Str) : comps p ≠ [] := List.splitOn_ne_nil slash p

@[simp] theorem comps_nil : comps [] = [[]] := rfl

theorem comps_of_not_mem {c : Str} (h : slash ∉ c) : comps c = [c] :=
  List.splitOn_eq_singleton h

theorem comps_append_slash (a b : Str) : comps (a ++ slash :: b) = comps a ++ comps b :=
  List.splitOn_append_cons_self a b

@[simp] theorem comps_slash (b : Str) : comps (slash :: b) = [] :: comps b :=
  comps_append_slash [] b

theorem intercalate_comps (p : Str) : [slash].intercalate (comps p) = p :=
  List.intercalate_splitOn slash

theorem comps_injective : Function.Injective comps := by
  intro p q h
  rw [← intercalate_comps p, h, intercalate_comps]

theorem comps_intercalate {cs : List Str} (hne : cs ≠ []) (h : ∀ c ∈ cs, slash ∉ c) :
    comps ([slash].intercalate cs) = cs :=
  List.splitOn_intercalate slash h hne

/-- Every string is a run without separator, or has a last separator. -/
theorem exists_last_comp (p : Str) :
    (slash ∉ p ∧ comps p = [p]) ∨
      ∃ a b, p = a ++ slash :: b ∧ slash ∉ b ∧ comps p = comps a ++ [b] := by
  induction p with
  | nil => exact Or.inl ⟨by simp, rfl⟩
  | cons c cs ih =>
    by_cases hc : c = slash
    · subst hc
      rcases ih with ⟨h, _⟩ | ⟨a, b, rfl, hb, hcomps⟩
      · exact Or.inr ⟨[], cs, rfl, h, by rw [comps_slash, comps_of_not_mem h]; rfl⟩
      · exact Or.inr ⟨slash :: a, b, rfl, hb, by simp [hcomps]⟩
    · rcases ih with ⟨h, _⟩ | ⟨a, b, rfl, hb, _⟩
      · have hcs : slash ∉ c :: cs := by simp [h, Ne.symm hc]
        exact Or.inl ⟨hcs, comps_of_not_mem hcs⟩
      · refine Or.inr ⟨c :: a, b, rfl, hb, ?_⟩
        rw [← List.cons_append, comps_append_slash, comps_of_not_mem hb]

/-- Bytes without a separator extend the last component. -/
theorem comps_append_plain {p x c : Str} {cs : List Str} (h : comps p = cs ++ [c])
    (hx : slash ∉ x) : comps (p ++ x) = cs ++ [c ++ x] := by
  have hno : ∀ d : Str, slash ∉ d → slash ∉ d ++ x := by
    intro d hd
    rw [List.mem_append, not_or]
    exact ⟨hd, hx⟩
  rcases exists_last_comp p with ⟨hp, hcomps⟩ | ⟨a, b, rfl, hb, hcomps⟩
  · obtain ⟨rfl, rfl⟩ : cs = [] ∧ c = p := by
      have h' : cs ++ [c] = [] ++ [p] := h.symm.trans hcomps
      simpa using List.append_inj' h' rfl
    rw [comps_of_not_mem (hno c hp), List.nil_append]
  · obtain ⟨rfl, rfl⟩ : cs = comps a ∧ c = b := by
      simpa using List.append_inj' (h.symm.trans hcomps) rfl
    rw [List.append_assoc, List.cons_append, comps_append_slash, comps_of_not_mem (hno c hb)]

/-- Every string is a run without separator, or has a first separator. -/
theorem exists_first_comp (p : Str) :
    (slash ∉ p ∧ comps p = [p]) ∨
      ∃ a b, p = a ++ slash :: b ∧ slash ∉ a ∧ comps p = a :: comps b := by
  induction p with
  | nil => exact Or.inl ⟨by simp, rfl⟩
  | cons c cs ih =>
    by_cases hc : c = slash
    · subst hc
      exact Or.inr ⟨[], cs, rfl, by simp, comps_slash cs⟩
    · rcases ih with ⟨h, _⟩ | ⟨a, b, rfl, ha, _⟩
      · have hcs : slash ∉ c :: cs := by simp [h, Ne.symm hc]
        exact Or.inl ⟨hcs, comps_of_not_mem hcs⟩
      · have hca : slash ∉ c :: a := by simp [ha, Ne.symm hc]
        refine Or.inr ⟨c :: a, b, rfl, hca, ?_⟩
        rw [← List.cons_append, comps_append_slash, comps_of_not_mem hca]
        rfl

theorem slash_not_mem_of_mem_comps {p c : Str} (h : c ∈ comps p) : slash ∉ c := by
  generalize hn : p.length = n
  induction n using Nat.strongRecOn generalizing p with
  | ind n ih =>
    rcases exists_last_comp p with ⟨hp, hcomps⟩ | ⟨a, b, rfl, hb, hcomps⟩
    · rw [hcomps, List.mem_singleton] at h
      exact h ▸ hp
    · rw [hcomps] at h
      rcases List.mem_append.mp h with h | h
      · refine ih a.length ?_ h rfl
        simp only [List.length_append, List.length_cons] at hn
        omega
      · rw [List.mem_singleton] at h
        exact h ▸ hb

theorem exists_comps_concat (p : Str) : ∃ cs c, comps p = cs ++ [c] := by
  rcases exists_last_comp p with ⟨_, hcomps⟩ | ⟨a, b, _, _, hcomps⟩
  · exact ⟨[], p, hcomps⟩
  · exact ⟨comps a, b, hcomps⟩

/-! ## Resolving components -/

/-- One component, read from the location `l`. -/
def Loc.enter (l : Loc) (c : Str) : Loc :=
  if c = dotdot then l.dropLast
  else if h : IsName c then l ++ [⟨c, h⟩]
  else l

def resolve (cs : List Str) : Loc := cs.foldl Loc.enter []

/-- The location denoted by `p`, read from the root. -/
def locate (p : Str) : Loc := resolve (comps p)

@[simp] theorem Loc.enter_nil (l : Loc) : l.enter [] = l := by
  simp [Loc.enter, IsName, dotdot]

@[simp] theorem Loc.enter_dot (l : Loc) : l.enter dot = l := by
  simp [Loc.enter, IsName, dot, dotdot]

@[simp] theorem Loc.enter_dotdot (l : Loc) : l.enter dotdot = l.dropLast := by
  simp [Loc.enter]

theorem Loc.enter_name (l : Loc) (n : Name) : l.enter n.val = l ++ [n] := by
  unfold Loc.enter
  rw [if_neg n.isName.2.2.1, dif_pos n.isName]

theorem foldl_enter_names (l k : Loc) : (k.map Name.val).foldl Loc.enter l = l ++ k := by
  induction k generalizing l with
  | nil => simp
  | cons n k ih => rw [List.map_cons, List.foldl_cons, Loc.enter_name, ih]; simp

@[simp] theorem resolve_nil : resolve [] = [] := rfl

theorem resolve_concat (cs : List Str) (c : Str) : resolve (cs ++ [c]) = (resolve cs).enter c := by
  simp [resolve]

theorem resolve_concat_name (cs : List Str) {c : Str} (hc : IsName c) :
    resolve (cs ++ [c]) = resolve cs ++ [⟨c, hc⟩] := by
  rw [resolve_concat]
  exact Loc.enter_name _ ⟨c, hc⟩

@[simp] theorem resolve_cons_nil (cs : List Str) : resolve ([] :: cs) = resolve cs := by
  simp [resolve]

theorem resolve_names (k : Loc) : resolve (k.map Name.val) = k :=
  foldl_enter_names [] k

/-- Empty components do not matter. -/
theorem resolve_filter (cs : List Str) : resolve (cs.filter (· ≠ [])) = resolve cs := by
  induction cs using List.reverseRecOn with
  | nil => rfl
  | append_singleton cs c ih =>
    rw [List.filter_append, resolve_concat, ← ih]
    by_cases hc : c = []
    · simp [hc]
    · rw [List.filter_singleton]
      simp [hc, resolve_concat]

/-- Without `.` and `..`, resolving only forgets the empty components. -/
theorem resolve_plain {cs : List Str} (h : ∀ c ∈ cs, c ≠ dot ∧ c ≠ dotdot ∧ slash ∉ c) :
    (resolve cs).map Name.val = cs.filter (· ≠ []) := by
  induction cs using List.reverseRecOn with
  | nil => rfl
  | append_singleton cs c ih =>
    have hcs := ih fun d hd => h d (List.mem_append_left _ hd)
    obtain ⟨hdot, hdotdot, hslash⟩ := h c (by simp)
    rw [List.filter_append, ← hcs]
    by_cases hc : c = []
    · simp [hc, resolve_concat]
    · rw [resolve_concat_name cs ⟨hc, hdot, hdotdot, hslash⟩]
      simp [hc]

/-! ## Canonical spelling -/

theorem not_prefix_dropLast {l : Loc} (h : l ≠ []) : ¬ l <+: l.dropLast := by
  intro hp
  have hlen := hp.length_le
  have hpos := List.length_pos_iff.mpr h
  rw [List.length_dropLast] at hlen
  omega

/-- The canonical absolute path of a location. -/
def Loc.path (l : Loc) : Str := slash :: [slash].intercalate (l.map Name.val)

/-- A canonical absolute path `/`, `/s1`, `/s1/s2`, ... -/
def Canonical (p : Str) : Prop := ∃ l : Loc, p = l.path

@[simp] theorem path_nil : Loc.path [] = [slash] := rfl

theorem slash_not_mem_val {l : Loc} : ∀ c ∈ l.map Name.val, slash ∉ c := by
  intro c hc
  obtain ⟨n, _, rfl⟩ := List.mem_map.mp hc
  exact n.isName.2.2.2

theorem comps_path {l : Loc} (h : l ≠ []) : comps l.path = [] :: l.map Name.val := by
  rw [Loc.path, comps_slash, comps_intercalate (by simpa using h) slash_not_mem_val]

@[simp] theorem locate_path (l : Loc) : locate l.path = l := by
  cases l with
  | nil => rfl
  | cons n l =>
    rw [locate, comps_path (by simp), resolve_cons_nil, resolve_names]

theorem path_injective : Function.Injective Loc.path := by
  intro l k h
  rw [← locate_path l, h, locate_path]

@[simp] theorem locate_slash (p : Str) : locate (slash :: p) = locate p := by
  simp [locate]

theorem locate_val (n : Name) : locate n.val = [n] := by
  rw [locate, comps_of_not_mem n.isName.2.2.2]
  exact Loc.enter_name [] n

theorem locate_append_slash (p : Str) : locate (p ++ [slash]) = locate p := by
  rw [locate, comps_append_slash, comps_nil, resolve_concat, Loc.enter_nil, locate]

/-- One name further down. -/
theorem locate_append_val (p : Str) (n : Name) :
    locate (p ++ slash :: n.val) = locate p ++ [n] := by
  rw [locate, comps_append_slash, comps_of_not_mem n.isName.2.2.2, resolve_concat, Loc.enter_name,
    locate]

theorem path_ne_slash {l : Loc} (h : l ≠ []) : l.path ≠ [slash] := by
  intro he
  exact h (path_injective (he.trans path_nil.symm))

/-! ## Directories -/

/-- The names of a location, each with a separator behind it. -/
def Loc.dirPath (l : Loc) : Str := l.flatMap fun n => n.val ++ [slash]

@[simp] theorem dirPath_nil : Loc.dirPath [] = [] := rfl

@[simp] theorem dirPath_cons (n : Name) (l : Loc) :
    Loc.dirPath (n :: l) = n.val ++ slash :: l.dirPath := by
  simp [Loc.dirPath]

theorem dirPath_append (l k : Loc) : Loc.dirPath (l ++ k) = l.dirPath ++ k.dirPath :=
  List.flatMap_append

theorem intercalate_concat (cs : List Str) (c : Str) :
    [slash].intercalate (cs ++ [c]) = (cs.flatMap fun c => c ++ [slash]) ++ c := by
  induction cs with
  | nil => simp
  | cons d cs ih =>
    rw [List.cons_append, List.intercalate_cons_of_ne_nil (by simp), ih]
    simp

theorem path_concat (l : Loc) (n : Name) : Loc.path (l ++ [n]) = slash :: (l.dirPath ++ n.val) := by
  rw [Loc.path, List.map_append, List.map_singleton, intercalate_concat, Loc.dirPath,
    List.flatMap_map]

/-- The first name of a path ends at the first separator. -/
theorem val_slash_prefix {n m : Name} {x y : Str} :
    n.val ++ slash :: x <+: m.val ++ slash :: y ↔ n = m ∧ x <+: y := by
  constructor
  · rintro ⟨z, hz⟩
    have hcomps := congrArg comps hz
    rw [List.append_assoc, List.cons_append, comps_append_slash, comps_append_slash,
      comps_of_not_mem n.isName.2.2.2, comps_of_not_mem m.isName.2.2.2] at hcomps
    obtain ⟨hname, hrest⟩ := List.cons.inj hcomps
    exact ⟨Name.ext hname, z, comps_injective hrest⟩
  · rintro ⟨rfl, z, rfl⟩
    exact ⟨z, by simp⟩

/-- A prefix that ends with a separator is that of an ancestor. -/
theorem dirPath_prefix_iff {k l : Loc} {x : Str} (hx : slash ∉ x) :
    k.dirPath <+: l.dirPath ++ x ↔ k <+: l := by
  induction k generalizing l with
  | nil => simp
  | cons n k ih =>
    cases l with
    | nil =>
      refine iff_of_false ?_ (by simp)
      rintro ⟨y, hy⟩
      apply hx
      rw [← List.nil_append x, ← dirPath_nil, ← hy]
      simp
    | cons m l =>
      rw [dirPath_cons, dirPath_cons, List.append_assoc, List.cons_append, val_slash_prefix, ih,
        List.cons_prefix_cons]

theorem hasPrefix_dirPath (l : Loc) {x : Str} (hx : hasPrefix x [slash] = false) :
    hasPrefix (l.dirPath ++ x) [slash] = false := by
  cases l with
  | nil => exact hx
  | cons n l =>
    obtain ⟨hne, _, _, hslash⟩ := n.isName
    obtain ⟨c, cs, hval⟩ := List.exists_cons_of_ne_nil hne
    have hc : slash ≠ c := by
      rintro rfl
      exact hslash (hval ▸ List.mem_cons_self)
    simp [hval, hasPrefix, List.isPrefixOf, hc]

/-! ## Lengths -/

/-- The number of bytes of the components, each with its separator. -/
def weight : List Str → Nat
  | [] => 0
  | c :: cs => c.length + 1 + weight cs

@[simp] theorem weight_nil : weight [] = 0 := rfl

@[simp] theorem weight_cons (c : Str) (cs : List Str) :
    weight (c :: cs) = c.length + 1 + weight cs := rfl

@[simp] theorem weight_append (cs ds : List Str) : weight (cs ++ ds) = weight cs + weight ds := by
  induction cs with
  | nil => simp
  | cons c cs ih =>
    rw [List.cons_append, weight_cons, weight_cons, ih]
    omega

theorem length_le_weight (cs : List Str) : cs.length ≤ weight cs := by
  induction cs with
  | nil => exact le_rfl
  | cons c cs ih =>
    rw [weight_cons, List.length_cons]
    omega

theorem weight_comps (p : Str) : weight (comps p) = p.length + 1 := by
  generalize hn : p.length = n
  induction n using Nat.strongRecOn generalizing p with
  | ind n ih =>
    rcases exists_first_comp p with ⟨_, hcomps⟩ | ⟨a, b, rfl, _, hcomps⟩
    · simp [hcomps, hn]
    · simp only [List.length_append, List.length_cons] at hn
      have := ih b.length (by omega) b rfl
      rw [hcomps, weight_cons]
      omega

theorem weight_enter_le (l : Loc) (c : Str) :
    weight ((l.enter c).map Name.val) ≤ weight (l.map Name.val) + (c.length + 1) := by
  unfold Loc.enter
  split
  · rcases List.eq_nil_or_concat' l with rfl | ⟨k, n, rfl⟩
    · simp
    · simp
      omega
  · split
    · simp
    · omega

theorem weight_resolve_le (cs : List Str) : weight ((resolve cs).map Name.val) ≤ weight cs := by
  induction cs using List.reverseRecOn with
  | nil => exact le_rfl
  | append_singleton cs c ih =>
    have := weight_enter_le (resolve cs) c
    simp only [resolve_concat, weight_append, weight_cons, weight_nil]
    omega

theorem length_path (l : Loc) : l.path.length = max 1 (weight (l.map Name.val)) := by
  cases l with
  | nil => rfl
  | cons n l =>
    have h := weight_comps (Loc.path (n :: l))
    rw [comps_path (by simp), weight_cons] at h
    have hpos : 1 ≤ weight ((n :: l).map Name.val) := by simp; omega
    simp only [List.length_nil] at h
    omega

/-! ## Which strings are canonical -/

/-- Without two separators in a row, only the last component can be empty. -/
theorem ne_nil_of_mem_dropLast_comps {s c : Str} (h : ¬ twoSlashes <:+: slash :: s)
    (hc : c ∈ (comps s).dropLast) : c ≠ [] := by
  generalize hn : s.length = n
  induction n using Nat.strongRecOn generalizing s with
  | ind n ih =>
    rcases exists_first_comp s with ⟨_, hcomps⟩ | ⟨a, b, rfl, _, hcomps⟩
    · simp [hcomps] at hc
    · rw [hcomps, List.dropLast_cons_of_ne_nil (comps_ne_nil b)] at hc
      rcases List.mem_cons.mp hc with rfl | hc
      · rintro rfl
        exact h ⟨[], b, rfl⟩
      · refine ih b.length ?_ (fun hin => h (hin.trans ?_)) hc rfl
        · simp only [List.length_append, List.length_cons] at hn
          omega
        · exact ⟨slash :: a, [], by simp⟩

/-- A rooted string without repeated separators, dot components and trailing separator
is canonical. -/
theorem path_locate {s : Str} (h : ¬ twoSlashes <:+: slash :: s)
    (hdots : ∀ c ∈ comps s, c ≠ dot ∧ c ≠ dotdot) (hlast : [] ∉ (comps s).getLast?) :
    (locate s).path = slash :: s := by
  have hne : ∀ c ∈ comps s, c ≠ [] := by
    intro c hc
    obtain ⟨cs, d, hcs⟩ := exists_comps_concat s
    rw [hcs] at hc hlast
    rcases List.mem_append.mp hc with hc | hc
    · exact ne_nil_of_mem_dropLast_comps h (by simpa [hcs] using hc)
    · rw [List.mem_singleton] at hc
      subst hc
      intro hnil
      simp [hnil] at hlast
  have hmap : (resolve (comps s)).map Name.val = comps s := by
    rw [resolve_plain fun c hc => ⟨(hdots c hc).1, (hdots c hc).2, slash_not_mem_of_mem_comps hc⟩]
    exact List.filter_eq_self.mpr fun c hc => decide_eq_true (hne c hc)
  rw [Loc.path, locate, hmap, intercalate_comps]

/-- The components that squeezing keeps: the empty ones go, except at the end. -/
def squeezeComps (cs : List Str) : List Str :=
  cs.dropLast.filter (· ≠ []) ++ cs.getLast?.toList

theorem squeezeComps_cons (c : Str) {cs : List Str} (h : cs ≠ []) :
    squeezeComps (c :: cs) = if c = [] then squeezeComps cs else c :: squeezeComps cs := by
  obtain ⟨d, ds, rfl⟩ := List.exists_cons_of_ne_nil h
  unfold squeezeComps
  rw [List.dropLast_cons_of_ne_nil h, List.filter_cons, List.getLast?_cons_cons]
  by_cases hc : c = [] <;> simp [hc]

/-- The first component stays as it is, the others are squeezed. -/
theorem comps_squeeze {s h : Str} {t : List Str} (hs : comps s = h :: t) :
    comps (squeeze s) = h :: squeezeComps t := by
  generalize hn : s.length = n
  induction n using Nat.strongRecOn generalizing s h t with
  | ind n ih =>
    rcases exists_first_comp s with ⟨hno, hcomps⟩ | ⟨a, b, rfl, ha, hcomps⟩
    · obtain ⟨rfl, rfl⟩ := List.cons.inj (hcomps.symm.trans hs)
      have hself := squeeze_of_not_mem_append hno []
      simp only [squeeze, List.append_nil] at hself
      rw [hself, hcomps]
      rfl
    · obtain ⟨rfl, rfl⟩ := List.cons.inj (hcomps.symm.trans hs)
      simp only [List.length_append, List.length_cons] at hn
      by_cases hb : b.head? = some slash
      · -- a run of separators: drop the first of them
        obtain ⟨b', rfl⟩ : ∃ b', b = slash :: b' := by
          cases b with
          | nil => cases hb
          | cons x xs => exact ⟨xs, by simpa using hb⟩
        rw [List.length_cons] at hn
        have hrest := ih (a ++ slash :: b').length (by simp; omega)
          (by rw [comps_append_slash, comps_of_not_mem ha]; rfl) rfl
        rw [squeeze_of_not_mem_append ha] at hrest ⊢
        rw [squeeze_slash_slash, hrest, comps_slash, squeezeComps_cons _ (comps_ne_nil b')]
        rfl
      · rw [squeeze_of_not_mem_append ha, squeeze_cons fun hc => hb hc.2, comps_append_slash,
          comps_of_not_mem ha]
        rcases exists_first_comp b with ⟨_, hcb⟩ | ⟨x, y, rfl, _, hcb⟩
        · rw [ih b.length (by omega) hcb rfl, hcb]
          rfl
        · have hx : x ≠ [] := by
            rintro rfl
            exact hb rfl
          rw [ih _ (by omega) hcb rfl, hcb, squeezeComps_cons _ (comps_ne_nil y), if_neg hx]
          rfl

theorem resolve_squeezeComps (cs : List Str) : resolve (squeezeComps cs) = resolve cs := by
  rcases List.eq_nil_or_concat' cs with rfl | ⟨ds, d, rfl⟩
  · rfl
  · simp only [squeezeComps, List.dropLast_concat, List.getLast?_append, List.getLast?_singleton,
      Option.some_or, Option.toList_some]
    rw [resolve_concat, resolve_concat, resolve_filter]

theorem resolve_dropLast_squeezeComps (cs : List Str) :
    resolve (squeezeComps cs).dropLast = resolve cs.dropLast := by
  rcases List.eq_nil_or_concat' cs with rfl | ⟨ds, d, rfl⟩
  · rfl
  · simp only [squeezeComps, List.dropLast_concat, List.getLast?_append, List.getLast?_singleton,
      Option.some_or, Option.toList_some]
    exact resolve_filter ds

theorem mem_squeezeComps {cs : List Str} {c : Str} (hc : c ≠ []) :
    c ∈ squeezeComps cs ↔ c ∈ cs := by
  rcases List.eq_nil_or_concat' cs with rfl | ⟨ds, d, rfl⟩
  · rfl
  · simp [squeezeComps, hc]

example : locate (str "/a/../b//./c/..") = [⟨str "b", by decide⟩] := by decide

end FileEngine.Go
