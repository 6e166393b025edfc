import FileEngine.Auth.Ancestors

/-!
# Requests and the path they are checked on

`internal/authz/path_extract.go` and `internal/authz/method_map.go`. A request carries
the fields of its message that the interceptors and handlers read.

`normalize` trims white space, roots the path and replaces `//` by `/` until there is
none left. The loop is total because every replacement shortens the path;
`normalize_eq` and `normalize_canonicalizes` say what it computes. `.` and `..` components
are kept, so the ancestor walk on a normalized path visits the ancestors of `checkedLoc`
(`mem_chain_normalize`), which need not be the location the path denotes.
-/

namespace FileEngine.Authz

open Go Auth

inductive Request
  | createFolder (parentPath folderName requestedBy : Str)
  | listObjects (listPrefix : Str)
  | uploadObject (path content : Str)
  | downloadObject (path : Str)
  | initiateUpload (targetPath : Str)
  | completeUpload
  | taskStatus
  | getTask
  | other (typeName : Str)

/-! ## The method table -/

def methodCreateFolder : Str := str "/fileengine.FileEngine/CreateFolder"
def methodListObjects : Str := str "/fileengine.FileEngine/ListObjects"
def methodUploadObject : Str := str "/fileengine.FileEngine/UploadObject"
def methodDownloadObject : Str := str "/fileengine.FileEngine/DownloadObject"

/-- `MethodPermission`: full method name to required permission. -/
def methodPermission : List (Str × Permission) :=
  [(methodCreateFolder, permWrite),
    (methodListObjects, permList),
    (methodUploadObject, permWrite),
    (methodDownloadObject, permRead),
    (str "/fileengine.FileEngine/InitiateUpload", permWrite),
    (str "/fileengine.FileEngine/CompleteUpload", permWrite),
    (str "/fileengine.FileEngine/GetTaskStatus", permRead),
    (str "/fileengine.FileEngine/GetTask", permRead)]

theorem lookup_createFolder : methodPermission.lookup methodCreateFolder = some permWrite := by
  rfl

theorem lookup_listObjects : methodPermission.lookup methodListObjects = some permList := by
  rfl

theorem lookup_uploadObject : methodPermission.lookup methodUploadObject = some permWrite := by
  rfl

theorem lookup_downloadObject : methodPermission.lookup methodDownloadObject = some permRead := by
  rfl

/-! ## Extracting the path -/

/-- `for strings.Contains(p, "//") { p = strings.ReplaceAll(p, "//", "/") }`. -/
def replaceSlashes (p : Str) : Str :=
  if contains p twoSlashes then replaceSlashes (replaceAll p twoSlashes [slash]) else p
termination_by p.length
decreasing_by
  rename_i h
  exact length_replaceAll_lt (by decide) (contains_iff.mp h)

def normalize (p : Str) : Str :=
  let p := trimSpace p
  if p = [] then [slash]
  else
    let p := if hasPrefix p [slash] then p else [slash] ++ p
    replaceSlashes p

/-- The string that a `CreateFolder` request names: parent, separator, name. -/
def folderPath (parentPath folderName : Str) : Str :=
  trimSuffix parentPath [slash] ++ [slash] ++ folderName

def extractPath : Request → Except Str Str
  | .listObjects listPrefix => .ok (normalize listPrefix)
  | .uploadObject path _ => .ok (normalize path)
  | .downloadObject path => .ok (normalize path)
  | .initiateUpload targetPath => .ok (normalize targetPath)
  | .completeUpload => .ok [slash]
  | .taskStatus => .ok [slash]
  | .getTask => .ok [slash]
  | .createFolder parentPath folderName _ => .ok (normalize (folderPath parentPath folderName))
  | .other typeName => .error (str "no path extractor for " ++ typeName)

/-! ## What `normalize` computes -/

theorem replaceSlashes_eq (p : Str) : replaceSlashes p = squeeze p := by
  induction p using replaceSlashes.induct with
  | case1 p h ih =>
    rw [replaceSlashes, if_pos h, ih, squeeze_replaceAll]
  | case2 p h =>
    have hno : ¬ twoSlashes <:+: p := fun hin => h (contains_iff.mpr hin)
    rw [replaceSlashes, if_neg h, squeeze_eq_self_iff.mpr hno]

/-- One round of the loop: it goes on with the replaced path, or breaks. -/
def slashRound (p : Str) : Str ⊕ Str :=
  if contains p twoSlashes then .inl (replaceAll p twoSlashes [slash]) else .inr p

/-- Every round but the last shortens the path. -/
theorem loop_slashRound (p : Str) {rounds : Nat} (h : p.length < rounds) :
    loop slashRound rounds p = some (replaceSlashes p) := by
  induction p using replaceSlashes.induct generalizing rounds with
  | case1 p hin ih =>
    obtain ⟨n, rfl⟩ := Nat.exists_eq_succ_of_ne_zero (by omega : rounds ≠ 0)
    have hround : slashRound p = .inl (replaceAll p twoSlashes [slash]) := if_pos hin
    have hlt : (replaceAll p twoSlashes [slash]).length < p.length :=
      length_replaceAll_lt (by decide) (contains_iff.mp hin)
    rw [loop_continue hround, ih (by omega)]
    nth_rewrite 2 [replaceSlashes]
    rw [if_pos hin]
  | case2 p hout =>
    obtain ⟨n, rfl⟩ := Nat.exists_eq_succ_of_ne_zero (by omega : rounds ≠ 0)
    have hround : slashRound p = .inr p := if_neg hout
    rw [loop_break hround, replaceSlashes, if_neg hout]

/-- A path with a separator in front, unless it has one. -/
def rooted (p : Str) : Str := if isAbs p then p else slash :: p

theorem normalize_eq (p : Str) : normalize p = squeeze (rooted (trimSpace p)) := by
  unfold normalize rooted isAbs
  simp only [replaceSlashes_eq]
  split
  · rename_i h
    rw [h]
    rfl
  · rfl

theorem exists_rooted (p : Str) : ∃ s, rooted p = slash :: s ∧ resolve (comps s) = locate p ∧
    resolve (comps s).dropLast = resolve (comps p).dropLast ∧
    ∀ c, c ≠ [] → (c ∈ comps s ↔ c ∈ comps p) := by
  by_cases h : isAbs p = true
  · obtain ⟨s, rfl⟩ := isAbs_iff.mp h
    refine ⟨s, by simp [rooted], by simp [locate], ?_, ?_⟩
    · rw [comps_slash, List.dropLast_cons_of_ne_nil (comps_ne_nil s), resolve_cons_nil]
    · intro c hc
      simp [hc]
  · exact ⟨p, by simp [rooted, h], rfl, rfl, fun _ _ => Iff.rfl⟩

theorem exists_normalize (p : Str) : ∃ s, normalize p = slash :: s := by
  obtain ⟨t, ht, _⟩ := exists_rooted (trimSpace p)
  have hhead := head?_squeeze (slash :: t)
  rw [normalize_eq, ht]
  cases hs : squeeze (slash :: t) with
  | nil =>
    rw [hs] at hhead
    cases hhead
  | cons c cs =>
    rw [hs, List.head?_cons, List.head?_cons, Option.some.injEq] at hhead
    exact ⟨cs, by rw [hhead]⟩

@[simp] theorem isAbs_normalize (p : Str) : isAbs (normalize p) = true :=
  isAbs_iff.mpr (exists_normalize p)

theorem not_twoSlashes_normalize (p : Str) : ¬ twoSlashes <:+: normalize p := by
  rw [normalize_eq]
  exact not_twoSlashes_squeeze _

theorem normalize_rooted {p : Str} (h : isAbs p = true) :
    normalize p = squeeze (trimSpace p) ∧ trimSpace p <+: p := by
  obtain ⟨t, rfl⟩ := isAbs_iff.mp h
  obtain ⟨suf, heq, hsuf⟩ := trimSpace_rooted t
  have hroot : isAbs (trimSpace (slash :: t)) = true := by
    cases htrim : trimSpace (slash :: t) with
    | nil =>
      rw [htrim, List.nil_append] at heq
      simp [← heq] at hsuf
    | cons c cs =>
      rw [htrim, List.cons_append, List.cons.injEq] at heq
      rw [← heq.1]
      exact isAbs_slash cs
  exact ⟨by rw [normalize_eq, rooted, if_pos hroot], ⟨suf, heq.symm⟩⟩

/-- A rooted path only ever gets shorter. -/
theorem normalize_sublist {p : Str} (h : isAbs p = true) : (normalize p).Sublist p := by
  obtain ⟨heq, hpre⟩ := normalize_rooted h
  rw [heq]
  exact (squeeze_sublist _).trans hpre.sublist

theorem normalize_eq_self_iff {p : Str} (h : isAbs p = true) :
    normalize p = p ↔ contains p twoSlashes = false ∧ trimSpace p = p := by
  obtain ⟨heq, hpre⟩ := normalize_rooted h
  rw [Bool.eq_false_iff, ne_eq, contains_iff]
  constructor
  · intro hp
    have hlen := (squeeze_sublist (trimSpace p)).length_le
    rw [← heq, hp] at hlen
    have htrim := hpre.eq_of_length_le hlen
    rw [htrim] at heq
    exact ⟨squeeze_eq_self_iff.mp (heq.symm.trans hp), htrim⟩
  · rintro ⟨hno, htrim⟩
    rw [heq, htrim, squeeze_eq_self_iff.mpr hno]

/-- Normalizing brings no white space to an end of the path. -/
theorem trimSpace_normalize (p : Str) : trimSpace (normalize p) = normalize p := by
  obtain ⟨_, _, _, _, _, hends⟩ := trimSpace_spec p
  refine trimSpace_eq_self_iff.mpr fun w hw => ⟨fun hpre => ?_, fun hsuf => ?_⟩
  · obtain ⟨s, hs⟩ := exists_normalize p
    obtain ⟨c, cs, rfl⟩ := List.exists_cons_of_ne_nil (spaceRunes_ne_nil w hw)
    rw [hs] at hpre
    apply slash_not_mem_spaceRunes _ hw
    rw [(List.cons_prefix_cons.mp hpre).1]
    exact List.mem_cons_self
  · rw [normalize_eq] at hsuf
    have hsuf' := suffix_of_squeeze (slash_not_mem_spaceRunes w hw) hsuf
    unfold rooted at hsuf'
    split_ifs at hsuf' with habs
    · exact (hends w hw).2 hsuf'
    · rcases List.suffix_cons_iff.mp hsuf' with rfl | hsuf'
      · exact slash_not_mem_spaceRunes _ hw List.mem_cons_self
      · exact (hends w hw).2 hsuf'

/-- **`normalize` is a canonical form for slashes.** The loop ends; the result is rooted and has
no two slashes in a row. It is the trimmed path, rooted, with one slash for each maximal run of
slashes, and normalizing it again changes nothing. -/
theorem normalize_canonicalizes (p : Str) :
    (∀ rounds, (rooted (trimSpace p)).length < rounds →
      loop slashRound rounds (rooted (trimSpace p)) = some (normalize p)) ∧
    hasPrefix (normalize p) [slash] = true ∧
    contains (normalize p) twoSlashes = false ∧
    normalize p = (slashRuns (rooted (trimSpace p))).flatMap (List.take 1) ∧
    normalize (normalize p) = normalize p := by
  have hno : contains (normalize p) twoSlashes = false := by
    rw [Bool.eq_false_iff, ne_eq, contains_iff]
    exact not_twoSlashes_normalize p
  refine ⟨fun rounds hr => ?_, isAbs_normalize p, hno, ?_, ?_⟩
  · rw [loop_slashRound _ hr, replaceSlashes_eq, normalize_eq]
  · rw [normalize_eq, squeeze_eq_runs]
  · exact (normalize_eq_self_iff (isAbs_normalize p)).mpr ⟨hno, trimSpace_normalize p⟩

example : normalize (str " a//b///c/ ") = str "/a/b/c/" := by decide +kernel

/-- Every extracted path is rooted. -/
theorem isAbs_extractPath {req : Request} {p : Str} (h : extractPath req = .ok p) :
    isAbs p = true := by
  cases req <;> simp only [extractPath, Except.ok.injEq, reduceCtorEq] at h <;> subst h
  all_goals first | exact isAbs_normalize _ | rfl

/-! ## What the walk sees of a normalized path -/

/-- The deepest location at which an entry is found for the request path `p`: the
location of the trimmed path, without its last component as soon as it has a `.` or
`..` component anywhere. -/
def checkedLoc (p : Str) : Loc := reach (comps (trimSpace p))

theorem reach_normalize (p : Str) : reach (comps (normalize p)) = checkedLoc p := by
  obtain ⟨s, hs, hloc, hdrop, hmem⟩ := exists_rooted (trimSpace p)
  have hcomps : comps (squeeze (slash :: s)) = [] :: squeezeComps (comps s) :=
    comps_squeeze (comps_slash s)
  have hne : squeezeComps (comps s) ≠ [] := by
    obtain ⟨cs, c, hcs⟩ := exists_comps_concat s
    simp [squeezeComps, hcs]
  have hdots : (∀ c ∈ [] :: squeezeComps (comps s), c ≠ dot ∧ c ≠ dotdot) ↔
      ∀ c ∈ comps (trimSpace p), c ≠ dot ∧ c ≠ dotdot := by
    constructor
    · intro h c hc
      by_cases hnil : c = []
      · subst hnil
        decide
      · exact h c (List.mem_cons_of_mem _ ((mem_squeezeComps hnil).mpr ((hmem c hnil).mpr hc)))
    · intro h c hc
      by_cases hnil : c = []
      · subst hnil
        decide
      · rcases List.mem_cons.mp hc with hc | hc
        · exact absurd hc hnil
        · exact h c ((hmem c hnil).mp ((mem_squeezeComps hnil).mp hc))
  rw [normalize_eq, hs, hcomps, checkedLoc, reach, reach, List.dropLast_cons_of_ne_nil hne,
    resolve_cons_nil, resolve_cons_nil, resolve_squeezeComps, resolve_dropLast_squeezeComps,
    hloc, hdrop]
  simp only [hdots, locate]

theorem mem_chain_normalize (p : Str) (k : Loc) :
    k.path ∈ chain (normalize p) ↔ k <+: checkedLoc p := by
  obtain ⟨s, hs⟩ := exists_normalize p
  have hno := not_twoSlashes_normalize p
  rw [← reach_normalize, hs]
  rw [hs] at hno
  exact mem_chain_iff hno k

end FileEngine.Authz
