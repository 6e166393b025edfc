import FileEngine.Go.Location

/-!
# Object keys

`internal/adapters/storage/s3` and `internal/adapters/storage/gcs`: the keys that the
two object backends use. Both take one separator off the path and put it under their
namespace; nothing else of the path is interpreted.
-/

namespace FileEngine.ObjectStore

open Go

/-- A key under the namespace `ns`. -/
def keyIn (ns path : Str) : Str :=
  let p := trimPrefix path [slash]
  if ns = [] then p else ns ++ [slash] ++ p

/-- The key prefix of a listing. -/
def listKeyIn (ns listPrefix : Str) : Str :=
  let keyPrefix := keyIn ns (trimPrefix listPrefix [slash])
  if keyPrefix ≠ [] ∧ ¬ hasSuffix keyPrefix [slash] then keyPrefix ++ [slash] else keyPrefix

structure S3Storage where
  bucket : Str
  ns : Str

def S3Storage.key (s : S3Storage) (path : Str) : Str := keyIn s.ns path

def S3Storage.listKey (s : S3Storage) (listPrefix : Str) : Str := listKeyIn s.ns listPrefix

structure GCSStorage where
  bucket : Str
  ns : Str

def GCSStorage.key (g : GCSStorage) (path : Str) : Str := keyIn g.ns path

def GCSStorage.listKey (g : GCSStorage) (listPrefix : Str) : Str := listKeyIn g.ns listPrefix

/-! ## Keys and components -/

/-- The path in a key, after the namespace. -/
def keyPath (path : Str) : Str := trimPrefix path [slash]

/-- The path in the key prefix of a listing. -/
def listKeyPath (path : Str) : Str := trimPrefix (trimPrefix path [slash]) [slash]

/-- What the namespace puts in front of every key. -/
def nsPart (ns : Str) : Str := if ns = [] then [] else ns ++ [slash]

theorem keyIn_eq (ns path : Str) : keyIn ns path = nsPart ns ++ keyPath path := by
  unfold keyIn nsPart keyPath
  split <;> simp

theorem hasSuffix_slash_iff {p : Str} : hasSuffix p [slash] = true ↔ p.getLast? = some slash := by
  rw [hasSuffix, List.isSuffixOf_iff_suffix]
  constructor
  · rintro ⟨q, rfl⟩
    simp
  · intro h
    obtain ⟨q, rfl⟩ := List.getLast?_eq_some_iff.mp h
    exact List.suffix_append _ _

/-- A path that is followed by a separator, unless it is empty. -/
def withSlash (p : Str) : Str := if p ≠ [] ∧ ¬ hasSuffix p [slash] then p ++ [slash] else p

theorem listKeyIn_eq (ns path : Str) :
    listKeyIn ns path = nsPart ns ++ withSlash (listKeyPath path) := by
  have hkey : keyIn ns (trimPrefix path [slash]) = nsPart ns ++ listKeyPath path := keyIn_eq ns _
  have hns : nsPart ns = [] ∨ (nsPart ns).getLast? = some slash := by
    unfold nsPart
    split <;> simp
  unfold listKeyIn withSlash
  simp only [hkey, hasSuffix_slash_iff, List.getLast?_append]
  cases hlast : (listKeyPath path).getLast? with
  | none =>
    rw [List.getLast?_eq_none_iff] at hlast
    rcases hns with hns | hns <;> simp [hlast, hns]
  | some c =>
    have hne : listKeyPath path ≠ [] := by
      rintro he
      simp [he] at hlast
    by_cases hc : c = slash <;> simp [hne, hc]

/-- A key starts, component by component, with the names of a location. -/
theorem comps_prefix_iff {k : Loc} (hk : k ≠ []) (x : Str) :
    (x = [slash].intercalate (k.map Name.val) ∨
      [slash].intercalate (k.map Name.val) ++ [slash] <+: x) ↔ k.map Name.val <+: comps x := by
  have hcomps : comps ([slash].intercalate (k.map Name.val)) = k.map Name.val :=
    comps_intercalate (by simpa using hk) slash_not_mem_val
  constructor
  · rintro (rfl | ⟨rest, rfl⟩)
    · rw [hcomps]
    · rw [List.append_assoc, List.singleton_append, comps_append_slash, hcomps]
      exact List.prefix_append _ _
  · rintro ⟨rest, hrest⟩
    by_cases hnil : rest = []
    · refine Or.inl (comps_injective ?_)
      rw [hcomps, ← hrest, hnil, List.append_nil]
    · refine Or.inr ⟨[slash].intercalate rest, comps_injective ?_⟩
      have hslash : ∀ c ∈ rest, slash ∉ c := fun c hc =>
        slash_not_mem_of_mem_comps (hrest ▸ List.mem_append_right _ hc)
      rw [List.append_assoc, List.singleton_append, comps_append_slash, hcomps,
        comps_intercalate hnil hslash, hrest]

theorem prefix_comps_withSlash (k : Loc) (x : Str) :
    k.map Name.val <+: comps (withSlash x) ↔ k.map Name.val <+: comps x := by
  unfold withSlash
  split
  · rw [comps_append_slash, comps_nil, List.prefix_concat_iff]
    refine or_iff_right ?_
    rcases List.eq_nil_or_concat' k with rfl | ⟨l, n, rfl⟩
    · simp
    · intro he
      rw [List.map_append] at he
      have hlast := (List.append_inj' he rfl).2
      simp [n.isName.1] at hlast
  · rfl

/-- The key prefix of `q`: every key for the root, and otherwise the key of `q` and the
keys that continue it after a separator. -/
def KeyCovers (key : Str → Str) (target q : Str) : Prop :=
  q = [slash] ∨ target = key q ∨ key q ++ [slash] <+: target

theorem keyCovers_iff (ns x : Str) (k : Loc) :
    KeyCovers (keyIn ns) (nsPart ns ++ x) k.path ↔ k.map Name.val <+: comps x := by
  by_cases hk : k = []
  · subst hk
    exact iff_of_true (Or.inl rfl) List.nil_prefix
  · have hkey : keyIn ns k.path = nsPart ns ++ [slash].intercalate (k.map Name.val) := by
      rw [keyIn_eq, keyPath, Loc.path]
      exact congrArg _ (trimPrefix_append [slash] _)
    rw [← comps_prefix_iff hk x, KeyCovers, hkey, List.append_cancel_left_eq, List.append_assoc,
      List.prefix_append_right_inj]
    exact or_iff_right (path_ne_slash hk)

end FileEngine.ObjectStore
