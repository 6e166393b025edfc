import FileEngine.Go.Location
import Mathlib.Data.List.DropRight
import Mathlib.Data.List.Infix
import Mathlib.Tactic.Common

/-!
# The `path/filepath` package on Unix

`clean`, `dir` and `join` are the documented lexical functions. `clean` processes the
components of its argument from left to right with a stack (`cleanStep`): empty and
`.` components are dropped, `..` removes the component before it, is dropped at the
root of a rooted path and is kept at the front of a relative one.

On rooted paths they are operations on locations:

* `clean_rooted`: `clean p` is the canonical spelling of `locate p`;
* `dir_rooted`: `dir p` resolves all components of `p` but the last;
* `join_base`: joining a canonical path to any base appends its names to the
  cleaned components of the base.
-/

namespace FileEngine.Go

def isAbs (p : Str) : Bool := hasPrefix p [slash]

theorem isAbs_iff {p : Str} : isAbs p = true ↔ ∃ t, p = slash :: t := by
  rw [isAbs, hasPrefix_iff]
  constructor
  · rintro ⟨t, rfl⟩
    exact ⟨t, rfl⟩
  · rintro ⟨t, rfl⟩
    exact ⟨t, rfl⟩

@[simp] theorem isAbs_slash (t : Str) : isAbs (slash :: t) = true := isAbs_iff.mpr ⟨t, rfl⟩

theorem isAbs_cons (c : UInt8) (t : Str) : isAbs (c :: t) = (slash == c) := by
  simp [isAbs, hasPrefix, List.isPrefixOf]

@[simp] theorem isAbs_path (l : Loc) : isAbs l.path = true := isAbs_slash _

/-! ## `Clean` -/

/-- One component of the path; the stack has its top at the end. -/
def cleanStep (rooted : Bool) (st : List Str) (c : Str) : List Str :=
  if c = [] ∨ c = dot then st
  else if c = dotdot then
    match st.getLast? with
    | none => if rooted then [] else [dotdot]
    | some top => if top = dotdot then st ++ [dotdot] else st.dropLast
  else st ++ [c]

def cleanComps (rooted : Bool) (cs : List Str) : List Str := cs.foldl (cleanStep rooted) []

/-- Spell the components of a cleaned path. -/
def spell (rooted : Bool) (cs : List Str) : Str :=
  if rooted then slash :: [slash].intercalate cs
  else if cs = [] then dot
  else [slash].intercalate cs

def clean (p : Str) : Str := spell (isAbs p) (cleanComps (isAbs p) (comps p))

theorem cleanStep_nil (r : Bool) (st : List Str) : cleanStep r st [] = st := by
  simp [cleanStep]

theorem cleanStep_name (r : Bool) (st : List Str) (n : Name) :
    cleanStep r st n.val = st ++ [n.val] := by
  obtain ⟨h1, h2, h3, _⟩ := n.isName
  simp [cleanStep, h1, h2, h3]

theorem cleanStep_dotdot (st : List Str) :
    cleanStep true st dotdot = if st.getLast? = some dotdot then st ++ [dotdot] else st.dropLast := by
  have h : ¬ (dotdot = [] ∨ dotdot = dot) := by decide
  rcases List.eq_nil_or_concat' st with rfl | ⟨k, top, rfl⟩
  · simp [cleanStep, h]
  · simp [cleanStep, h]

theorem cleanStep_rooted (l : Loc) {c : Str} (hc : slash ∉ c) :
    cleanStep true (l.map Name.val) c = (l.enter c).map Name.val := by
  by_cases h1 : c = [] ∨ c = dot
  · rcases h1 with rfl | rfl <;> simp [cleanStep]
  · obtain ⟨hnil, hdot⟩ := not_or.mp h1
    by_cases h2 : c = dotdot
    · subst h2
      rw [cleanStep_dotdot, Loc.enter_dotdot]
      rcases List.eq_nil_or_concat' l with rfl | ⟨k, n, rfl⟩
      · rfl
      · simp [n.isName.2.2.1]
    · have hn : IsName c := ⟨hnil, hdot, h2, hc⟩
      have henter : l.enter c = l ++ [⟨c, hn⟩] := Loc.enter_name l ⟨c, hn⟩
      rw [henter]
      simp [cleanStep, h1, h2]

/-- On a rooted path the stack is the location reached. -/
theorem cleanComps_rooted {cs : List Str} (h : ∀ c ∈ cs, slash ∉ c) :
    cleanComps true cs = (resolve cs).map Name.val := by
  induction cs using List.reverseRecOn with
  | nil => rfl
  | append_singleton cs c ih =>
    have hcs := ih fun d hd => h d (List.mem_append_left _ hd)
    rw [cleanComps, List.foldl_append] at *
    rw [hcs, resolve_concat]
    exact cleanStep_rooted _ (h c (by simp))

theorem cleanComps_append_names (r : Bool) (cs : List Str) (k : Loc) :
    cleanComps r (cs ++ k.map Name.val) = cleanComps r cs ++ k.map Name.val := by
  induction k using List.reverseRecOn with
  | nil => simp
  | append_singleton k n ih =>
    rw [List.map_append, ← List.append_assoc, ← List.append_assoc, ← ih, cleanComps,
      List.foldl_append]
    exact cleanStep_name r _ n

theorem clean_slash (p : Str) : clean (slash :: p) = (locate p).path := by
  rw [clean, isAbs_slash, cleanComps_rooted fun _ hc => slash_not_mem_of_mem_comps hc]
  simp [spell, Loc.path, locate]

theorem clean_rooted {p : Str} (h : isAbs p = true) : clean p = (locate p).path := by
  obtain ⟨t, rfl⟩ := isAbs_iff.mp h
  rw [clean_slash, locate_slash]

@[simp] theorem clean_path (l : Loc) : clean l.path = l.path := by
  rw [clean_rooted (isAbs_path l), locate_path]

/-! ## `Dir` -/

/-- The part of a path up to and including its last separator. -/
def dirPart (p : Str) : Str := p.rdropWhile (· ≠ slash)

def dir (p : Str) : Str := clean (dirPart p)

theorem dirPart_append_slash (a : Str) {b : Str} (hb : slash ∉ b) :
    dirPart (a ++ slash :: b) = a ++ [slash] := by
  have hall : ∀ c ∈ b.reverse, decide (c ≠ slash) = true := by
    intro c hc
    have hcb := List.mem_reverse.mp hc
    exact decide_eq_true fun h => hb (h ▸ hcb)
  rw [dirPart, List.rdropWhile, List.reverse_append, List.reverse_cons, List.append_assoc,
    List.dropWhile_append_of_pos hall]
  simp

theorem dir_rooted {p : Str} (h : isAbs p = true) : dir p = (resolve (comps p).dropLast).path := by
  obtain ⟨t, rfl⟩ := isAbs_iff.mp h
  rcases exists_last_comp (slash :: t) with ⟨hno, _⟩ | ⟨a, b, heq, hb, hcomps⟩
  · simp at hno
  · have habs : isAbs (a ++ [slash]) = true := by
      cases a with
      | nil => rfl
      | cons c cs =>
        simp only [List.cons_append, List.cons.injEq] at heq
        rw [← heq.1]
        exact isAbs_slash _
    rw [hcomps, dir, heq, dirPart_append_slash a hb, clean_rooted habs, locate,
      comps_append_slash, comps_nil, resolve_concat, List.dropLast_concat, Loc.enter_nil]

theorem dir_path (l : Loc) : dir l.path = Loc.path l.dropLast := by
  rw [dir_rooted (isAbs_path l)]
  cases l with
  | nil => rfl
  | cons n l =>
    rw [comps_path (by simp), List.map_cons, List.dropLast_cons_of_ne_nil (by simp),
      resolve_cons_nil, ← List.map_cons, ← List.map_dropLast, resolve_names]

/-! ## `Join` -/

/-- Leading empty elements are ignored; the others are joined and cleaned. -/
def join (elems : List Str) : Str :=
  match elems.dropWhile (· = []) with
  | [] => []
  | es => clean ([slash].intercalate es)

/-- The components that a path string shows, `.` standing for none. -/
def pathComps (p : Str) : List Str := (comps p).filter fun c => c ≠ [] ∧ c ≠ dot

/-- `p` is `q` or lies beneath `q`, for two cleaned paths. -/
def AtOrBeneath (q p : Str) : Prop := isAbs q = isAbs p ∧ pathComps q <+: pathComps p

/-- The cleaned components of a base directory. -/
def baseComps (base : Str) : List Str := cleanComps (isAbs base) (comps base)

/-- A component that `clean` keeps: a name, or a `..` that nothing stands before. -/
def Kept (c : Str) : Prop := c ≠ [] ∧ c ≠ dot ∧ slash ∉ c

theorem kept_dotdot : Kept dotdot := by
  unfold Kept
  decide

theorem kept_val (n : Name) : Kept n.val := ⟨n.isName.1, n.isName.2.1, n.isName.2.2.2⟩

theorem kept_cleanStep (r : Bool) {st : List Str} {c : Str} (hc : slash ∉ c)
    (h : ∀ d ∈ st, Kept d) : ∀ d ∈ cleanStep r st c, Kept d := by
  have hpush : ∀ e, Kept e → ∀ d ∈ st ++ [e], Kept d := by
    intro e he d hd
    rcases List.mem_append.mp hd with hd | hd
    · exact h d hd
    · rw [List.mem_singleton.mp hd]
      exact he
  unfold cleanStep
  split
  · exact h
  · rename_i hskip
    obtain ⟨hnil, hdot⟩ := not_or.mp hskip
    split
    · split
      · split
        · simp
        · simpa using kept_dotdot
      · split
        · exact hpush dotdot kept_dotdot
        · exact fun d hd => h d (List.mem_of_mem_dropLast hd)
    · exact hpush c ⟨hnil, hdot, hc⟩

theorem kept_cleanComps (r : Bool) {cs : List Str} (h : ∀ c ∈ cs, slash ∉ c) :
    ∀ d ∈ cleanComps r cs, Kept d := by
  induction cs using List.reverseRecOn with
  | nil => simp [cleanComps]
  | append_singleton cs c ih =>
    rw [cleanComps, List.foldl_append]
    exact kept_cleanStep r (h c (by simp)) (ih fun d hd => h d (List.mem_append_left _ hd))

theorem isAbs_spell (r : Bool) {cs : List Str} (h : ∀ d ∈ cs, Kept d) :
    isAbs (spell r cs) = r := by
  cases r with
  | true => simp [spell]
  | false =>
    cases cs with
    | nil => rfl
    | cons c cs =>
      obtain ⟨hne, _, hslash⟩ := h c (by simp)
      obtain ⟨x, xs, rfl⟩ := List.exists_cons_of_ne_nil hne
      have hx : x ≠ slash := by
        intro he
        simp [he] at hslash
      cases cs with
      | nil => simp [spell, isAbs_cons, Ne.symm hx]
      | cons d ds => simp [spell, isAbs_cons, List.intercalate_cons_cons, Ne.symm hx]

theorem pathComps_spell (r : Bool) {cs : List Str} (h : ∀ d ∈ cs, Kept d) :
    pathComps (spell r cs) = cs := by
  have hfilter : cs.filter (fun c => c ≠ [] ∧ c ≠ dot) = cs := by
    apply List.filter_eq_self.mpr
    intro c hc
    simp [(h c hc).1, (h c hc).2.1]
  by_cases hcs : cs = []
  · subst hcs
    cases r <;> rfl
  · have hcomps := comps_intercalate hcs fun c hc => (h c hc).2.2
    cases r with
    | true => simpa [spell, pathComps, hcomps] using hfilter
    | false => simpa [spell, pathComps, hcomps, hcs] using hfilter

/-- Joining a canonical path to a base appends its names to the components of the
base. An empty base is the root directory. -/
theorem join_base (base : Str) (l : Loc) :
    join [base, l.path] =
      if base = [] then l.path else spell (isAbs base) (baseComps base ++ l.map Name.val) := by
  by_cases hb : base = []
  · subst hb
    simp [join, Loc.path]
    exact clean_path l
  · rw [if_neg hb]
    have hdrop : [base, l.path].dropWhile (· = []) = [base, l.path] := by simp [hb]
    have hjoin : [slash].intercalate [base, l.path] = base ++ slash :: l.path := by
      simp [List.intercalate_cons_cons]
    have habs : isAbs (base ++ slash :: l.path) = isAbs base := by
      obtain ⟨x, xs, rfl⟩ := List.exists_cons_of_ne_nil hb
      rw [List.cons_append, isAbs_cons, isAbs_cons]
    have hfold : cleanComps (isAbs base) (comps base ++ comps l.path) =
        cleanComps (isAbs base) (comps base ++ l.map Name.val) := by
      cases l with
      | nil => simp [cleanComps, Loc.path, cleanStep_nil]
      | cons n l =>
        rw [comps_path (by simp)]
        simp [cleanComps, cleanStep_nil]
    simp only [join, hdrop]
    rw [hjoin, clean, habs, comps_append_slash, hfold, cleanComps_append_names]
    rfl

/-- Whatever the base is, it contributes a fixed front to all paths joined to it. -/
theorem exists_join_front (base : Str) : ∃ (r : Bool) (front : List Str),
    (∀ d ∈ front, Kept d) ∧ ∀ l : Loc, join [base, l.path] = spell r (front ++ l.map Name.val) := by
  by_cases hb : base = []
  · refine ⟨true, [], by simp, fun l => ?_⟩
    rw [join_base, if_pos hb]
    rfl
  · refine ⟨isAbs base, baseComps base, ?_, fun l => by rw [join_base, if_neg hb]⟩
    exact kept_cleanComps _ fun _ hc => slash_not_mem_of_mem_comps hc

theorem atOrBeneath_join (base : Str) (k l : Loc) :
    AtOrBeneath (join [base, k.path]) (join [base, l.path]) ↔ k <+: l := by
  obtain ⟨r, front, hfront, hjoin⟩ := exists_join_front base
  have hkept : ∀ m : Loc, ∀ d ∈ front ++ m.map Name.val, Kept d := by
    intro m d hd
    rcases List.mem_append.mp hd with hd | hd
    · exact hfront d hd
    · obtain ⟨n, _, rfl⟩ := List.mem_map.mp hd
      exact kept_val n
  rw [AtOrBeneath, hjoin k, hjoin l, isAbs_spell r (hkept k), isAbs_spell r (hkept l),
    pathComps_spell r (hkept k), pathComps_spell r (hkept l), List.prefix_append_right_inj,
    val_prefix_iff]
  exact and_iff_right rfl

/-- With an absolute base everything happens on locations. -/
theorem join_rooted {base : Str} (h : isAbs base = true) (l : Loc) :
    join [base, l.path] = (locate base ++ l).path := by
  have hb : base ≠ [] := by
    rintro rfl
    cases h
  rw [join_base, if_neg hb, baseComps, h,
    cleanComps_rooted fun _ hc => slash_not_mem_of_mem_comps hc, ← List.map_append]
  rfl

/-! ## Where cleaned paths lead -/

theorem resolve_dotdots (n : Nat) (k : Loc) :
    resolve (List.replicate n dotdot ++ k.map Name.val) = k := by
  have hroot : resolve (List.replicate n dotdot) = [] := by
    induction n with
    | zero => rfl
    | succ n ih =>
      rw [List.replicate_succ', resolve_concat, ih]
      rfl
  have hfold := foldl_enter_names (resolve (List.replicate n dotdot)) k
  rw [hroot, List.nil_append] at hfold
  rw [resolve, List.foldl_append]
  rw [resolve] at hroot
  rw [hroot]
  exact hfold

/-- A cleaned path goes up first, if at all, and then down to where the path leads. -/
theorem exists_cleanComps (r : Bool) {cs : List Str} (h : ∀ c ∈ cs, slash ∉ c) :
    ∃ n, cleanComps r cs = List.replicate n dotdot ++ (resolve cs).map Name.val := by
  cases r with
  | true => exact ⟨0, cleanComps_rooted h⟩
  | false =>
    induction cs using List.reverseRecOn with
    | nil => exact ⟨0, rfl⟩
    | append_singleton cs c ih =>
      obtain ⟨n, hn⟩ := ih fun d hd => h d (List.mem_append_left _ hd)
      have hstep : cleanComps false (cs ++ [c]) = cleanStep false (cleanComps false cs) c := by
        rw [cleanComps, List.foldl_append]
        rfl
      rw [hstep, hn, resolve_concat]
      by_cases hskip : c = [] ∨ c = dot
      · refine ⟨n, ?_⟩
        rcases hskip with rfl | rfl <;> simp [cleanStep]
      · by_cases hdd : c = dotdot
        · subst hdd
          rw [Loc.enter_dotdot]
          rcases List.eq_nil_or_concat' (resolve cs) with hroot | ⟨k, m, hk⟩
          · refine ⟨n + 1, ?_⟩
            rw [hroot]
            cases n with
            | zero => simp [cleanStep, hskip]
            | succ n => simp [cleanStep, hskip, List.replicate_succ']
          · refine ⟨n, ?_⟩
            rw [hk, List.dropLast_concat, List.map_append, ← List.append_assoc]
            simp [cleanStep, hskip, m.isName.2.2.1]
        · obtain ⟨hnil, hdot⟩ := not_or.mp hskip
          have hname : IsName c := ⟨hnil, hdot, hdd, h c (by simp)⟩
          refine ⟨n, ?_⟩
          have henter : (resolve cs).enter c = resolve cs ++ [⟨c, hname⟩] :=
            Loc.enter_name _ ⟨c, hname⟩
          rw [henter]
          simp [cleanStep, hskip, hdd]

theorem comps_spell (r : Bool) {cs : List Str} (h : ∀ d ∈ cs, slash ∉ d) (hne : cs ≠ []) :
    comps (spell r cs) = if r then [] :: cs else cs := by
  have hcomps := comps_intercalate hne h
  cases r <;> simp [spell, hne, hcomps]

/-- The components of a cleaned path, and of its directory. -/
theorem exists_clean (p : Str) : ∃ n,
    resolve (comps (clean p)) = resolve (List.replicate n dotdot ++ (locate p).map Name.val) ∧
    resolve (comps (clean p)).dropLast =
      resolve (List.replicate n dotdot ++ (locate p).map Name.val).dropLast := by
  have hslash : ∀ c ∈ comps p, slash ∉ c := fun _ hc => slash_not_mem_of_mem_comps hc
  obtain ⟨n, hn⟩ := exists_cleanComps (isAbs p) hslash
  change _ = List.replicate n dotdot ++ (locate p).map Name.val at hn
  refine ⟨n, ?_⟩
  rw [clean, hn]
  by_cases hnil : List.replicate n dotdot ++ (locate p).map Name.val = []
  · rw [hnil]
    cases isAbs p <;> exact ⟨rfl, rfl⟩
  · rw [comps_spell _ ?_ hnil]
    · cases isAbs p with
      | false => exact ⟨rfl, rfl⟩
      | true => simp [List.dropLast_cons_of_ne_nil hnil]
    · intro d hd
      rcases List.mem_append.mp hd with hd | hd
      · rw [(List.mem_replicate.mp hd).2]
        exact kept_dotdot.2.2
      · exact slash_not_mem_val d hd

theorem cleanComps_dotdots (n : Nat) :
    cleanComps false (List.replicate n dotdot) = List.replicate n dotdot := by
  induction n with
  | zero => rfl
  | succ n ih =>
    have hstep : cleanStep false (List.replicate n dotdot) dotdot =
        List.replicate n dotdot ++ [dotdot] := by
      cases n with
      | zero => decide
      | succ n => simp [cleanStep, List.replicate_succ', dotdot, dot]
    rw [List.replicate_succ', cleanComps, List.foldl_append]
    exact (congrArg (cleanStep false · dotdot) ih).trans hstep

/-- A cleaned path stays as it is. -/
theorem clean_clean (p : Str) : clean (clean p) = clean p := by
  by_cases habs : isAbs p = true
  · rw [clean_rooted habs, clean_path]
  · have hslash : ∀ c ∈ comps p, slash ∉ c := fun _ hc => slash_not_mem_of_mem_comps hc
    obtain ⟨n, hn⟩ := exists_cleanComps false hslash
    change _ = List.replicate n dotdot ++ (locate p).map Name.val at hn
    have hclean : clean p = spell false (List.replicate n dotdot ++ (locate p).map Name.val) := by
      rw [clean, Bool.eq_false_iff.mpr habs, hn]
    have hkept := kept_cleanComps false hslash
    rw [hn] at hkept
    by_cases hnil : List.replicate n dotdot ++ (locate p).map Name.val = []
    · rw [hclean, hnil]
      decide
    · rw [hclean, clean, isAbs_spell false hkept,
        comps_spell false (fun d hd => (hkept d hd).2.2) hnil]
      simp only [Bool.false_eq_true, if_false]
      rw [cleanComps_append_names, cleanComps_dotdots]

theorem clean_ne_nil (p : Str) : clean p ≠ [] := by
  intro h
  have hempty := clean_clean p
  rw [h] at hempty
  exact absurd hempty (by decide)

theorem locate_clean (p : Str) : locate (clean p) = locate p := by
  obtain ⟨n, hn, _⟩ := exists_clean p
  rw [locate, hn, resolve_dotdots]

/-- The directory of a path is where all its components but the last one lead. -/
theorem locate_dir (p : Str) : locate (dir p) = resolve (comps p).dropLast := by
  rw [dir, locate_clean]
  rcases exists_last_comp p with ⟨hno, hcomps⟩ | ⟨a, b, rfl, hb, hcomps⟩
  · have hnil : dirPart p = [] :=
      List.rdropWhile_eq_nil_iff.mpr fun c hc => decide_eq_true fun he => hno (he ▸ hc)
    rw [hnil, hcomps]
    rfl
  · rw [dirPart_append_slash a hb, hcomps, List.dropLast_concat, locate_append_slash, locate]

theorem locate_dir_clean (p : Str) : locate (dir (clean p)) = (locate (clean p)).dropLast := by
  obtain ⟨n, _, hn⟩ := exists_clean p
  rw [locate_dir, hn, locate_clean]
  rcases List.eq_nil_or_concat' (locate p) with hroot | ⟨k, m, hk⟩
  · rw [hroot, List.map_nil, List.append_nil, List.dropLast_replicate]
    simpa using resolve_dotdots (n - 1) []
  · rw [hk, List.map_append, ← List.append_assoc, List.map_singleton, List.dropLast_concat,
      List.dropLast_concat, resolve_dotdots]

/-- The last component of a cleaned path is the last name of its location. -/
theorem exists_comps_clean {p : Str} {k : Loc} {n : Name} (h : locate p = k ++ [n]) :
    ∃ cs, comps (clean p) = cs ++ [n.val] ∧ resolve cs = k := by
  have hslash : ∀ c ∈ comps p, slash ∉ c := fun _ hc => slash_not_mem_of_mem_comps hc
  obtain ⟨m, hm⟩ := exists_cleanComps (isAbs p) hslash
  change _ = List.replicate m dotdot ++ (locate p).map Name.val at hm
  rw [h, List.map_append, List.map_singleton, ← List.append_assoc] at hm
  have hno : ∀ d ∈ List.replicate m dotdot ++ k.map Name.val ++ [n.val], slash ∉ d := by
    intro d hd
    rw [← hm] at hd
    exact (kept_cleanComps _ hslash d hd).2.2
  rw [clean, hm, comps_spell _ hno (by simp)]
  cases isAbs p with
  | false => exact ⟨_, rfl, resolve_dotdots m k⟩
  | true => exact ⟨[] :: _, rfl, (resolve_cons_nil _).trans (resolve_dotdots m k)⟩

theorem locate_dir_join (elems : List Str) :
    locate (dir (join elems)) = (locate (join elems)).dropLast := by
  unfold join
  split
  · decide
  · exact locate_dir_clean _

/-- A location beneath a base, for every base. -/
theorem locate_join_path (base : Str) (l : Loc) :
    locate (join [base, l.path]) = locate base ++ l := by
  have hpath : l.path ≠ [] := by simp [Loc.path]
  by_cases hbase : base = []
  · subst hbase
    have hjoin : join [[], l.path] = clean l.path := by simp [join, hpath, List.intercalate]
    rw [hjoin, clean_path, locate_path]
    rfl
  · have hjoin : join [base, l.path] = clean (base ++ slash :: l.path) := by
      simp [join, hbase, List.intercalate]
    have hcomps : ∀ k : Loc, ([] :: [] :: k.map Name.val).foldl Loc.enter (locate base) =
        locate base ++ k := by
      intro k
      simp only [List.foldl_cons, Loc.enter_nil]
      exact foldl_enter_names (locate base) k
    rw [hjoin, locate_clean, locate, comps_append_slash, resolve, List.foldl_append]
    show (comps l.path).foldl Loc.enter (locate base) = _
    by_cases hl : l = []
    · subst hl
      exact hcomps []
    · rw [comps_path hl]
      simpa using hcomps l

theorem locate_join_name (d : Str) (n : Name) : locate (join [d, n.val]) = locate d ++ [n] := by
  by_cases hd : d = []
  · subst hd
    have hjoin : join [[], n.val] = clean n.val := by simp [join, n.isName.1]
    rw [hjoin, locate_clean, locate_val]
    rfl
  · have hjoin : join [d, n.val] = clean (d ++ slash :: n.val) := by
      simp [join, hd, List.intercalate_cons_cons]
    rw [hjoin, locate_clean, locate_append_val]

theorem join_name (l : Loc) (n : Name) : join [l.path, n.val] = Loc.path (l ++ [n]) := by
  have hjoin : join [l.path, n.val] = clean (l.path ++ slash :: n.val) := by
    simp [join, Loc.path, List.intercalate_cons_cons]
  rw [hjoin, clean_rooted (by rfl), locate_append_val, locate_path]

/-! ## `Rel` -/

/-- What is left of two lists after their common front. -/
def dropCommon : List Str → List Str → List Str × List Str
  | b :: bs, t :: ts => if b = t then dropCommon bs ts else (b :: bs, t :: ts)
  | bs, ts => (bs, ts)

/-- `Rel`: up from the base as far as needed, and then down to the target. What a `..` of the
base has left is not known. -/
def rel (basepath targpath : Str) : Except Str Str :=
  let base := clean basepath
  let targ := clean targpath
  let cannot := str "Rel: can't make " ++ targpath ++ str " relative to " ++ basepath
  if targ = base then .ok dot
  else if isAbs base ≠ isAbs targ then .error cannot
  else
    let (bs, ts) := dropCommon (pathComps base) (pathComps targ)
    if bs.head? = some dotdot then .error cannot
    else .ok ([slash].intercalate (bs.map (fun _ => dotdot) ++ ts))

/-- `Rel` cleans its target. -/
theorem rel_clean (basepath targpath r : Str) :
    rel basepath (clean targpath) = .ok r ↔ rel basepath targpath = .ok r := by
  unfold rel
  rw [clean_clean]
  dsimp only
  split_ifs <;> simp

example : clean (str "../a/./b/..//c/") = str "../a/c" := by decide

example : rel (str "/srv/a") (str "/srv/b/c") = .ok (str "../b/c") := by decide

example : rel (str "../..") (str "..") = .error (str "Rel: can't make .. relative to ../..") := by
  decide

end FileEngine.Go
