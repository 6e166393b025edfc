import FileEngine.Storage.ObjectBackends

/-!
# Listings of the object backends

A listing is a permutation of what the backend shows of the entries that the provider
returns, however these are cut into pages (`s3_lists`, `gcs_lists`). Two things follow
by looking at single entries.

* `listings_alike_iff`: GCS asks for all keys with a prefix, S3 for those up to the next
  separator, so the two list alike exactly where there is nothing below.
* `listings_name_iff`: `List` takes the namespace off a key and `key` puts it back on. S3
  also takes off a leading separator when there is no namespace, and `List` collapses
  separators at the ends of its prefix, so exactly keys with a separator in front or with
  two in a row come back as something else.
-/

namespace FileEngine.ObjectStore

open Go

/-! ## The entries of a listing -/

theorem mem_items {b : Bucket} {delimited : Bool} {keyPrefix : Str} {it : Item} :
    it ∈ b.items delimited keyPrefix ↔
      ∃ y, keyPrefix ++ y ∈ b ∧ b.item delimited keyPrefix (keyPrefix ++ y) = it := by
  unfold Bucket.items
  simp only [List.mem_dedup, List.mem_map, List.mem_filter, mem_sorted, Finmap.mem_keys,
    hasPrefix_iff]
  constructor
  · rintro ⟨_, ⟨hk, y, rfl⟩, hit⟩
    exact ⟨y, hk, hit⟩
  · rintro ⟨y, hk, hit⟩
    exact ⟨_, ⟨hk, y, rfl⟩, hit⟩

theorem nodup_items (b : Bucket) (delimited : Bool) (keyPrefix : Str) :
    (b.items delimited keyPrefix).Nodup :=
  List.nodup_dedup _

theorem flatten_cut {α : Type} (lengths : List Nat) (xs : List α) :
    (cut lengths xs).flatten = xs := by
  induction lengths generalizing xs with
  | nil => simp [cut]
  | cons n lengths ih => simp [cut, ih]

/-- The program returns these entries in some order, unless the request fails. -/
def Lists (prog : CloudM (List ObjectInfo)) (b : Bucket) (infos : List ObjectInfo) : Prop :=
  ∀ choices, ((choices 0).fault ≠ none → ∃ e, (Prog.run prog.run choices b).value = .error e) ∧
    ((choices 0).fault = none →
      ∃ out, (Prog.run prog.run choices b).value = .ok out ∧ out.Perm infos)

theorem Lists.perm {prog : CloudM (List ObjectInfo)} {b : Bucket} {infos out : List ObjectInfo}
    (h : Lists prog b infos) {choices : Nat → Choice}
    (hout : (Prog.run prog.run choices b).value = .ok out) : out.Perm infos := by
  by_cases hfault : (choices 0).fault = none
  · obtain ⟨out', hout', hperm⟩ := (h choices).2 hfault
    cases hout.symm.trans hout'
    exact hperm
  · obtain ⟨e, he⟩ := (h choices).1 hfault
    cases hout.symm.trans he

/-- A listing that shows each page up to the order. -/
theorem lists_of_page {listPage : Page → List ObjectInfo} {shown : Item → Option ObjectInfo}
    (hpage : ∀ items, (listPage (page items)).Perm (items.filterMap shown)) (delimited : Bool)
    (keyPrefix : Str) (b : Bucket) :
    Lists (do let pages ← list delimited keyPrefix; return pages.flatMap listPage) b
      ((b.items delimited keyPrefix).filterMap shown) := by
  intro choices
  have hrun : ∀ r, b.pages (choices 0) delimited keyPrefix = r →
      (Prog.run (list delimited keyPrefix).run choices b).value = r := fun _ h => h
  constructor
  · intro hfault
    obtain ⟨e, he⟩ := Option.ne_none_iff_exists'.mp hfault
    exact ⟨e, (Prog.run_bindE_error (hrun (.error e) (by simp [Bucket.pages, he])) _).1⟩
  · intro hfault
    have hok := hrun (.ok _) (by simp only [Bucket.pages, hfault]; rfl)
    refine ⟨_, (Prog.run_bindE_ok hok _).1, ?_⟩
    -- page by page, and then the pages are put together again
    rw [List.flatMap_map]
    refine (List.Perm.flatMap_left _ fun items _ => hpage items).trans ?_
    rw [List.flatMap_def, ← List.filterMap_flatten, flatten_cut]

/-- What S3 shows of an entry. -/
def S3Storage.shown (s : S3Storage) : Item → Option ObjectInfo
  | .folder cp => some ⟨[slash] ++ trimSuffix (trimPrefix cp (s.ns ++ [slash])) [slash], 0, true⟩
  | .object key size =>
      if isPlaceholder (key, size) then none
      else some ⟨[slash] ++ trimPrefix key (s.ns ++ [slash]), size, false⟩

/-- What GCS shows of an entry. -/
def GCSStorage.shown (g : GCSStorage) : Item → Option ObjectInfo
  | .folder _ => none
  | .object key size =>
      if isPlaceholder (key, size) then none
      else some
        ⟨[slash] ++ (if g.ns ≠ [] then trimPrefix key (g.ns ++ [slash]) else key), size, false⟩

theorem s3_listPage_perm (s : S3Storage) (items : List Item) :
    (s.listPage (page items)).Perm (items.filterMap s.shown) := by
  induction items with
  | nil => exact .refl _
  | cons it items ih =>
    cases it with
    | folder cp => exact .cons _ ih
    | object key size =>
      show (S3Storage.listPage s
        ⟨(page items).commonPrefixes, (key, size) :: (page items).contents⟩).Perm _
      unfold S3Storage.listPage at ih ⊢
      by_cases hp : isPlaceholder (key, size) = true
      · have hshown : s.shown (.object key size) = none := if_pos hp
        rw [List.filter_cons_of_neg (by simpa using hp), List.filterMap_cons_none hshown]
        exact ih
      · have hshown : s.shown (.object key size) = some _ := if_neg hp
        rw [List.filter_cons_of_pos (by simpa using hp), List.filterMap_cons_some hshown]
        exact List.perm_middle.trans (.cons _ ih)

theorem gcs_listPage_eq (g : GCSStorage) (items : List Item) :
    g.listPage (page items) = items.filterMap g.shown := by
  induction items with
  | nil => rfl
  | cons it items ih =>
    cases it with
    | folder cp => exact ih
    | object key size =>
      show GCSStorage.listPage g
        ⟨(page items).commonPrefixes, (key, size) :: (page items).contents⟩ = _
      unfold GCSStorage.listPage at ih ⊢
      by_cases hp : isPlaceholder (key, size) = true
      · have hshown : g.shown (.object key size) = none := if_pos hp
        rw [List.filter_cons_of_neg (by simpa using hp), List.filterMap_cons_none hshown]
        exact ih
      · have hshown : g.shown (.object key size) = some _ := if_neg hp
        rw [List.filter_cons_of_pos (by simpa using hp), List.filterMap_cons_some hshown]
        exact congrArg (List.cons _) ih

theorem s3_lists (s : S3Storage) (listPrefix : Str) (b : Bucket) :
    Lists (s.list listPrefix) b ((b.items true (s.listKey listPrefix)).filterMap s.shown) :=
  lists_of_page (s3_listPage_perm s) true _ b

theorem gcs_lists (g : GCSStorage) (listPrefix : Str) (b : Bucket) :
    Lists (g.list listPrefix) b ((b.items false (g.listKey listPrefix)).filterMap g.shown) :=
  lists_of_page (fun items => gcs_listPage_eq g items ▸ .refl _) false _ b

/-! ## Taking the namespace off -/

theorem trimPrefix_nsPart (ns x : Str) :
    trimPrefix (nsPart ns ++ x) (ns ++ [slash]) = if ns = [] then trimPrefix x [slash] else x := by
  unfold nsPart
  split
  · rename_i h
    rw [h, List.nil_append, List.nil_append]
  · exact trimPrefix_append _ _

theorem keyIn_slash (ns y : Str) : keyIn ns ([slash] ++ y) = nsPart ns ++ y := by
  rw [keyIn_eq, keyPath, trimPrefix_append]

theorem listKeyIn_slash (ns y : Str) :
    listKeyIn ns ([slash] ++ y) = nsPart ns ++ withSlash (trimPrefix y [slash]) := by
  rw [listKeyIn_eq, listKeyPath, trimPrefix_append]

/-- Every key in a listing is under the namespace. -/
theorem exists_listKeyIn (ns listPrefix : Str) :
    ∃ x, ∀ w, listKeyIn ns listPrefix ++ w = nsPart ns ++ (x ++ w) :=
  ⟨withSlash (listKeyPath listPrefix), fun w => by rw [listKeyIn_eq, List.append_assoc]⟩

theorem trimPrefix_slash_eq_self {x : Str} :
    trimPrefix x [slash] = x ↔ hasPrefix x [slash] = false := by
  refine ⟨fun h => ?_, fun h => by simp [trimPrefix, h]⟩
  rw [Bool.eq_false_iff]
  intro hpre
  obtain ⟨y, rfl⟩ := hasPrefix_iff.mp hpre
  rw [trimPrefix_append] at h
  simpa using congrArg List.length h

/-- A file comes back under its own key, unless S3 has taken a separator off it. -/
theorem keyIn_shown (ns x : Str) :
    keyIn ns ([slash] ++ trimPrefix (nsPart ns ++ x) (ns ++ [slash])) = nsPart ns ++ x ↔
      (ns = [] → hasPrefix x [slash] = false) := by
  rw [keyIn_slash, trimPrefix_nsPart, List.append_cancel_left_eq]
  split
  · rename_i h
    simp only [h, forall_const]
    exact trimPrefix_slash_eq_self
  · rename_i h
    simp [h]

theorem length_withSlash (x : Str) : (withSlash x).length ≤ x.length + 1 := by
  unfold withSlash
  split <;> simp

theorem length_trimPrefix_le (x pre : Str) : (trimPrefix x pre).length ≤ x.length := by
  unfold trimPrefix
  split <;> simp

theorem hasSuffix_twoSlashes_concat (z : Str) :
    hasSuffix (z ++ [slash]) twoSlashes = hasSuffix z [slash] := by
  rw [Bool.eq_iff_iff, hasSuffix_iff, hasSuffix_iff]
  constructor
  · rintro ⟨t, ht⟩
    exact ⟨t, List.append_cancel_right (by simpa [twoSlashes] using ht)⟩
  · rintro ⟨t, rfl⟩
    exact ⟨t, by simp [twoSlashes]⟩

/-- What is left of a prefix with a separator in front. -/
theorem length_trimmed (ns z : Str) : (trimPrefix (trimSuffix
    (if ns = [] then trimPrefix (slash :: z ++ [slash]) [slash] else slash :: z ++ [slash])
    [slash]) [slash]).length ≤ z.length := by
  split
  · have htrim : trimPrefix (slash :: z ++ [slash]) [slash] = z ++ [slash] :=
      trimPrefix_append [slash] _
    rw [htrim, trimSuffix_append]
    exact length_trimPrefix_le z _
  · rw [trimSuffix_append]
    exact (congrArg List.length (trimPrefix_append [slash] z)).le

/-- A directory is listed under its own prefix, unless there are separators at its ends. -/
theorem listKeyIn_shown (ns z : Str) :
    listKeyIn ns ([slash] ++
        trimSuffix (trimPrefix (nsPart ns ++ (z ++ [slash])) (ns ++ [slash])) [slash]) =
      nsPart ns ++ (z ++ [slash]) ↔
      hasPrefix (z ++ [slash]) [slash] = false ∧ hasSuffix (z ++ [slash]) twoSlashes = false := by
  rw [listKeyIn_slash, trimPrefix_nsPart, List.append_cancel_left_eq]
  cases z with
  | nil =>
    -- nothing but a separator is the root
    have hroot : (if ns = [] then trimPrefix [slash] [slash] else [slash]) = [] ∨
        (if ns = [] then trimPrefix [slash] [slash] else [slash]) = [slash] := by
      split
      · exact Or.inl rfl
      · exact Or.inr rfl
    refine iff_of_false ?_ (by decide)
    rcases hroot with h | h <;> rw [List.nil_append, h] <;> decide
  | cons c z =>
    by_cases hc : c = slash
    · subst hc
      refine iff_of_false (fun h => ?_) (by simp [hasPrefix])
      have hlen := (length_withSlash _).trans (Nat.succ_le_succ (length_trimmed ns z))
      rw [h, List.length_append, List.length_cons] at hlen
      simp only [List.length_singleton] at hlen
      omega
    · have hpre : ∀ x, hasPrefix (c :: x) [slash] = false := by
        intro x
        simp [hasPrefix, List.isPrefixOf, Ne.symm hc]
      rw [List.cons_append, trimPrefix_slash_eq_self.mpr (hpre _), ite_self, ← List.cons_append,
        trimSuffix_append, trimPrefix_slash_eq_self.mpr (hpre _), hasSuffix_twoSlashes_concat,
        List.cons_append, hpre]
      simp only [withSlash]
      cases hasSuffix (c :: z) [slash] <;> simp

/-! ## The two backends side by side -/

theorem item_object {b : Bucket} {delimited : Bool} {keyPrefix y : Str}
    (h : delimited = false ∨ slash ∉ y) : b.item delimited keyPrefix (keyPrefix ++ y) =
      .object (keyPrefix ++ y) ((b.lookup (keyPrefix ++ y)).getD []).length := by
  unfold Bucket.item
  rw [List.drop_left]
  refine if_neg fun hno => ?_
  rcases h with h | h
  · exact Bool.false_ne_true (h.symm.trans hno.1)
  · exact h hno.2

theorem item_folder {b : Bucket} {keyPrefix y : Str} (h : slash ∈ y) :
    b.item true keyPrefix (keyPrefix ++ y) =
      .folder (keyPrefix ++ y.takeWhile (· ≠ slash) ++ [slash]) := by
  unfold Bucket.item
  rw [List.drop_left]
  exact if_pos ⟨rfl, h⟩

/-- No key with this prefix goes on beyond a further separator. -/
def Flat (b : Bucket) (keyPrefix : Str) : Prop := ∀ y, keyPrefix ++ y ∈ b → slash ∉ y

/-- Whatever the two programs return has the same entries. -/
def ListAlike (prog prog' : CloudM (List ObjectInfo)) (b : Bucket) : Prop :=
  ∀ choices choices' out out', (Prog.run prog.run choices b).value = .ok out →
    (Prog.run prog'.run choices' b).value = .ok out' → ∀ info, info ∈ out ↔ info ∈ out'

theorem listAlike_iff {prog prog' : CloudM (List ObjectInfo)} {b : Bucket}
    {infos infos' : List ObjectInfo} (h : Lists prog b infos) (h' : Lists prog' b infos') :
    ListAlike prog prog' b ↔ ∀ info, info ∈ infos ↔ info ∈ infos' := by
  constructor
  · intro halike info
    obtain ⟨out, hout, hperm⟩ := (h fun _ => .smooth []).2 rfl
    obtain ⟨out', hout', hperm'⟩ := (h' fun _ => .smooth []).2 rfl
    rw [← hperm.mem_iff, ← hperm'.mem_iff]
    exact halike _ _ out out' hout hout' info
  · intro hmem choices choices' out out' hout hout' info
    rw [(h.perm hout).mem_iff, (h'.perm hout').mem_iff]
    exact hmem info

theorem hasPrefix_val (n : Name) : hasPrefix n.val [slash] = false := by
  rw [Bool.eq_false_iff]
  intro h
  exact n.isName.2.2.2 ((hasPrefix_iff.mp h).subset List.mem_cons_self)

theorem hasSuffix_val (x : Str) (n : Name) : hasSuffix (x ++ n.val) [slash] = false := by
  rw [Bool.eq_false_iff]
  intro h
  rw [hasSuffix_slash_iff, List.getLast?_append_of_ne_nil _ n.isName.1] at h
  exact n.isName.2.2.2 (List.mem_of_getLast? h)

theorem keyIn_path_concat (ns : Str) (l : Loc) (n : Name) :
    keyIn ns (Loc.path (l ++ [n])) = nsPart ns ++ (l.dirPath ++ n.val) := by
  rw [path_concat]
  exact keyIn_slash ns _

theorem listKeyIn_path (ns : Str) (l : Loc) : listKeyIn ns l.path = nsPart ns ++ l.dirPath := by
  rcases List.eq_nil_or_concat' l with rfl | ⟨m, n, rfl⟩
  · exact listKeyIn_slash ns []
  · have hpre := hasPrefix_dirPath m (hasPrefix_val n)
    have hne : Loc.dirPath m ++ n.val ≠ [] := by simp [n.isName.1]
    have hlast : ¬ hasSuffix (Loc.dirPath m ++ n.val) [slash] = true := by
      rw [hasSuffix_val]
      exact Bool.false_ne_true
    rw [path_concat, ← List.singleton_append, listKeyIn_slash, trimPrefix_slash_eq_self.mpr hpre,
      withSlash, if_pos ⟨hne, hlast⟩, dirPath_append]
    simp

theorem keyIn_placeholder (ns : Str) (l : Loc) :
    keyIn ns (placeholder l.path) = nsPart ns ++ l.dirPath := by
  rcases List.eq_nil_or_concat' l with rfl | ⟨m, n, rfl⟩
  · exact keyIn_slash ns []
  · have hlast : hasSuffix (slash :: (Loc.dirPath m ++ n.val)) [slash] = false :=
      hasSuffix_val (slash :: Loc.dirPath m) n
    rw [placeholder, path_concat, trimSuffix, hlast, dirPath_append]
    simpa using keyIn_slash ns (Loc.dirPath m ++ n.val ++ [slash])

/-- Without a namespace, S3 takes nothing off the keys in a canonical directory. -/
theorem shown_eq_of_flat {bucket bucket' ns y : Str} (hy : slash ∉ y) (l : Loc) (size : Nat) :
    S3Storage.shown ⟨bucket', ns⟩ (.object (listKeyIn ns l.path ++ y) size) =
      GCSStorage.shown ⟨bucket, ns⟩ (.object (listKeyIn ns l.path ++ y) size) := by
  unfold S3Storage.shown GCSStorage.shown
  by_cases hns : ns = []
  · have hpre : hasPrefix y [slash] = false := by
      rw [Bool.eq_false_iff]
      intro h
      exact hy ((hasPrefix_iff.mp h).subset List.mem_cons_self)
    have htrim := trimPrefix_slash_eq_self.mpr (hasPrefix_dirPath l hpre)
    simp [hns, listKeyIn_path, nsPart, htrim]
  · simp [hns]

/-- GCS shows no directories. -/
theorem isDir_of_gcs_shown {g : GCSStorage} {it : Item} {info : ObjectInfo}
    (h : g.shown it = some info) : info.isDir = false := by
  cases it with
  | folder cp => cases h
  | object key size =>
    simp only [GCSStorage.shown] at h
    split_ifs at h
    all_goals rw [← Option.some.inj h]

theorem mem_items_of_flat {b : Bucket} {keyPrefix : Str} (h : Flat b keyPrefix) (it : Item) :
    it ∈ b.items true keyPrefix ↔ it ∈ b.items false keyPrefix := by
  rw [mem_items, mem_items]
  refine exists_congr fun y => and_congr_right fun hy => ?_
  rw [item_object (Or.inr (h y hy)), item_object (Or.inl rfl)]

/-- **The two backends side by side.** In a canonical directory, GCS and S3 list alike
exactly if no key in it goes on beyond a further separator. -/
theorem listings_alike_iff (bucket bucket' ns : Str) (b : Bucket) (l : Loc) :
    ListAlike (GCSStorage.list ⟨bucket, ns⟩ l.path) (S3Storage.list ⟨bucket', ns⟩ l.path) b ↔
      Flat b (nsPart ns ++ l.dirPath) := by
  rw [listAlike_iff (gcs_lists _ _ b) (s3_lists _ _ b), ← listKeyIn_path]
  simp only [List.mem_filterMap]
  constructor
  · intro h y hy hslash
    have hitem := mem_items.mpr ⟨y, hy, item_folder (b := b) hslash⟩
    obtain ⟨it, _, hit⟩ := (h _).mpr ⟨_, hitem, rfl⟩
    cases isDir_of_gcs_shown hit
  · intro h info
    refine exists_congr fun it => ?_
    refine (and_congr_left' (mem_items_of_flat h it).symm).trans (and_congr_right fun hit => ?_)
    obtain ⟨y, hy, rfl⟩ := mem_items.mp hit
    have hslash := h y hy
    rw [item_object (Or.inr hslash)]
    exact iff_of_eq (congrArg (· = some info) (shown_eq_of_flat hslash l _).symm)

/-- A bucket with a single object. -/
def single (key body : Str) : Bucket := Finmap.singleton key body

/-- The listing of a single object, if it is under the prefix. -/
theorem lists_single {prog : CloudM (List ObjectInfo)} {key body keyPrefix : Str} {delimited : Bool}
    {shown : Item → Option ObjectInfo} {info : ObjectInfo}
    (h : Lists prog (single key body)
      (((single key body).items delimited keyPrefix).filterMap shown))
    (hpre : hasPrefix key keyPrefix = true)
    (hshown : shown ((single key body).item delimited keyPrefix key) = some info) :
    (Prog.run prog.run (fun _ => .smooth []) (single key body)).value = .ok [info] := by
  obtain ⟨out, hout, hperm⟩ := (h fun _ => .smooth []).2 rfl
  have hitems : (single key body).items delimited keyPrefix =
      [(single key body).item delimited keyPrefix key] := by
    have hkeys : sorted (single key body).keys = [key] := by
      rw [single, Finmap.keys_singleton]
      exact Finset.sort_singleton _ _
    rw [Bucket.items, hkeys, List.filter_cons_of_pos (by simpa using hpre)]
    rfl
  rw [hitems, List.filterMap_cons_some hshown, List.filterMap_nil, List.perm_singleton] at hperm
  rw [hout, hperm]

/-- Of the object `a/b/c`, GCS shows the file and S3 the directory `/a/b`. -/
theorem listings_differ_below :
    (Prog.run (GCSStorage.list ⟨str "bucket", []⟩ (str "/a")).run (fun _ => .smooth [])
        (single (str "a/b/c") (str "x"))).value = .ok [⟨str "/a/b/c", 1, false⟩] ∧
      (Prog.run (S3Storage.list ⟨str "bucket", []⟩ (str "/a")).run (fun _ => .smooth [])
        (single (str "a/b/c") (str "x"))).value = .ok [⟨str "/a/b", 0, true⟩] :=
  ⟨lists_single (gcs_lists _ _ _) (by decide) (by rfl),
    lists_single (s3_lists _ _ _) (by decide) (by rfl)⟩

/-! ## What the entries name -/

/-- What S3 finds when it is asked for the entry again: the key of the object, or the prefix
of the directory. -/
def S3Storage.Names (s : S3Storage) : Item → ObjectInfo → Prop
  | .folder cp, info => s.listKey info.path = cp
  | .object key _, info => s.key info.path = key

def GCSStorage.Names (g : GCSStorage) : Item → ObjectInfo → Prop
  | .folder cp, info => g.listKey info.path = cp
  | .object key _, info => g.key info.path = key

/-- A directory has no separator in front and no two of them behind, and an object that is
shown has no separator in front if there is no namespace. -/
def S3Storage.Plain (s : S3Storage) : Item → Prop
  | .folder cp =>
      let path := cp.drop (nsPart s.ns).length
      hasPrefix path [slash] = false ∧ hasSuffix path twoSlashes = false
  | .object key size =>
      isPlaceholder (key, size) = false → s.ns = [] → hasPrefix key [slash] = false

theorem s3_names_iff {s : S3Storage} {b : Bucket} {listPrefix : Str} {it : Item}
    (hit : it ∈ b.items true (s.listKey listPrefix)) :
    (∀ info, s.shown it = some info → s.Names it info) ↔ s.Plain it := by
  obtain ⟨y, _, rfl⟩ := mem_items.mp hit
  rw [S3Storage.listKey]
  obtain ⟨x, hkey⟩ := exists_listKeyIn s.ns listPrefix
  by_cases hslash : slash ∈ y
  · rw [item_folder hslash, hkey, List.append_assoc]
    simp only [S3Storage.shown, Option.some.injEq, forall_eq', S3Storage.Names, S3Storage.Plain,
      List.drop_left]
    exact listKeyIn_shown s.ns _
  · rw [item_object (Or.inr hslash), hkey]
    simp only [S3Storage.shown, S3Storage.Names, S3Storage.Plain]
    cases isPlaceholder _ with
    | true => simp
    | false =>
      simp only [Bool.false_eq_true, if_false, Option.some.injEq, forall_eq', forall_const]
      refine (keyIn_shown s.ns (x ++ y)).trans (forall_congr' fun hns => ?_)
      rw [hns]
      rfl

theorem gcs_names {g : GCSStorage} {b : Bucket} {listPrefix : Str} {it : Item}
    (hit : it ∈ b.items false (g.listKey listPrefix)) {info : ObjectInfo}
    (hshown : g.shown it = some info) : g.Names it info := by
  obtain ⟨y, _, rfl⟩ := mem_items.mp hit
  obtain ⟨x, hkey⟩ := exists_listKeyIn g.ns listPrefix
  rw [item_object (Or.inl rfl)] at hshown ⊢
  simp only [GCSStorage.shown, GCSStorage.listKey, hkey] at hshown
  simp only [GCSStorage.Names, GCSStorage.listKey, hkey]
  split_ifs at hshown with hplace hns
  · rw [← Option.some.inj hshown]
    exact (keyIn_shown g.ns (x ++ y)).mpr fun h => absurd h hns
  · rw [← Option.some.inj hshown]
    exact (keyIn_slash g.ns _).trans (by simp [nsPart, not_not.mp hns])

/-- After the namespace, no key begins with a separator or has two of them in a row. -/
def SingleSlashes (ns : Str) (b : Bucket) : Prop :=
  ∀ x, nsPart ns ++ x ∈ b → hasPrefix x [slash] = false ∧ ¬ twoSlashes <:+: x

/-- The part up to the first separator, with the separator. -/
theorem takeWhile_slash_prefix {y : Str} (h : slash ∈ y) :
    y.takeWhile (· ≠ slash) ++ [slash] <+: y := by
  induction y with
  | nil => cases h
  | cons c y ih =>
    by_cases hc : c = slash
    · simp [hc]
    · rw [List.takeWhile_cons_of_pos (by simpa using hc), List.cons_append, List.prefix_cons_inj]
      exact ih ((List.mem_cons.mp h).resolve_left (Ne.symm hc))

theorem plain_of_singleSlashes {s : S3Storage} {b : Bucket} (h : SingleSlashes s.ns b)
    {listPrefix : Str} {it : Item} (hit : it ∈ b.items true (s.listKey listPrefix)) :
    s.Plain it := by
  obtain ⟨y, hy, rfl⟩ := mem_items.mp hit
  rw [S3Storage.listKey] at hy ⊢
  obtain ⟨x, hkey⟩ := exists_listKeyIn s.ns listPrefix
  rw [hkey] at hy
  obtain ⟨hfirst, htwo⟩ := h _ hy
  by_cases hslash : slash ∈ y
  · -- what the directory is listed under is a front part of the key
    have hfront : x ++ (y.takeWhile (· ≠ slash) ++ [slash]) <+: x ++ y :=
      (List.prefix_append_right_inj x).mpr ( takeWhile_slash_prefix hslash)
    rw [item_folder hslash, List.append_assoc, hkey]
    simp only [S3Storage.Plain, List.drop_left]
    constructor
    · rw [Bool.eq_false_iff] at hfirst ⊢
      exact fun hpre => hfirst (hasPrefix_iff.mpr ((hasPrefix_iff.mp hpre).trans hfront))
    · rw [Bool.eq_false_iff]
      exact fun hsuf => htwo ((hasSuffix_iff.mp hsuf).isInfix.trans hfront.isInfix)
  · rw [item_object (Or.inr hslash), hkey]
    intro _ hns
    rw [hns]
    exact hfirst

theorem singleSlashes_of_plain {s : S3Storage} {b : Bucket}
    (h : ∀ listPrefix, ∀ it ∈ b.items true (s.listKey listPrefix), s.Plain it) :
    SingleSlashes s.ns b := by
  -- a separator at the start of what follows the prefix of a listing
  have hplain : ∀ listPrefix x v, s.listKey listPrefix = nsPart s.ns ++ x →
      nsPart s.ns ++ (x ++ slash :: v) ∈ b →
      hasPrefix (x ++ [slash]) [slash] = false ∧ hasSuffix (x ++ [slash]) twoSlashes = false := by
    intro listPrefix x v hlist hmem
    rw [← List.append_assoc, ← hlist] at hmem
    have hit := h listPrefix _ (mem_items.mpr ⟨_, hmem, item_folder (b := b) List.mem_cons_self⟩)
    rw [hlist] at hit
    simpa [S3Storage.Plain] using hit
  intro x hx
  have hfirst : hasPrefix x [slash] = false := by
    rw [Bool.eq_false_iff]
    intro hpre
    obtain ⟨v, rfl⟩ := hasPrefix_iff.mp hpre
    have hroot := hplain [slash] [] v (listKeyIn_slash s.ns []) hx
    cases hroot.1
  refine ⟨hfirst, ?_⟩
  rintro ⟨u, v, rfl⟩
  have hu : hasPrefix (u ++ [slash]) [slash] = false := by
    rw [Bool.eq_false_iff] at hfirst ⊢
    refine fun hpre => hfirst (hasPrefix_iff.mpr ((hasPrefix_iff.mp hpre).trans ?_))
    exact ⟨slash :: v, by simp [twoSlashes]⟩
  have hlast : hasSuffix (u ++ [slash]) [slash] = true := hasSuffix_iff.mpr ⟨u, rfl⟩
  have hlist : s.listKey ([slash] ++ (u ++ [slash])) = nsPart s.ns ++ (u ++ [slash]) := by
    rw [S3Storage.listKey, listKeyIn_slash, trimPrefix_slash_eq_self.mpr hu, withSlash]
    simp [hlast]
  have hdir := hplain _ (u ++ [slash]) v hlist (by simpa [twoSlashes] using hx)
  rw [hasSuffix_twoSlashes_concat, hlast] at hdir
  cases hdir.2

/-- **What a listing names.** What the backends return is what they show of the entries of
the provider. For S3, all that is shown leads back to what it stands for, in every listing,
exactly if the keys have single separators. For GCS it always does. -/
theorem listings_name_iff (s : S3Storage) (g : GCSStorage) (b : Bucket) :
    (∀ listPrefix,
      Lists (s.list listPrefix) b ((b.items true (s.listKey listPrefix)).filterMap s.shown) ∧
      Lists (g.list listPrefix) b ((b.items false (g.listKey listPrefix)).filterMap g.shown)) ∧
    ((∀ listPrefix, ∀ it ∈ b.items true (s.listKey listPrefix),
        ∀ info, s.shown it = some info → s.Names it info) ↔ SingleSlashes s.ns b) ∧
    ∀ listPrefix, ∀ it ∈ b.items false (g.listKey listPrefix),
      ∀ info, g.shown it = some info → g.Names it info := by
  refine ⟨fun listPrefix => ⟨s3_lists s listPrefix b, gcs_lists g listPrefix b⟩, ?_,
    fun _ _ hit _ hshown => gcs_names hit hshown⟩
  constructor
  · intro h
    exact singleSlashes_of_plain fun listPrefix it hit =>
      (s3_names_iff hit).mp (h listPrefix it hit)
  · intro h listPrefix it hit
    exact (s3_names_iff hit).mpr (plain_of_singleSlashes h hit)

/-- An object that was uploaded to `//x`, on S3 without a namespace: the root lists the
directory `/`, which is not the prefix `/` but the root again, and in that prefix the
object is shown as `/x`, which is another key. -/
theorem listing_names_another :
    let s : S3Storage := ⟨str "bucket", []⟩
    s.key (str "//x") = str "/x" ∧
    ((Prog.run (s.list (str "/")).run (fun _ => .smooth []) (single (str "/x") (str "y"))).value =
        .ok [⟨str "/", 0, true⟩] ∧
      S3Storage.shown s (.folder (str "/")) = some ⟨str "/", 0, true⟩ ∧
      s.listKey (str "/") ≠ str "/") ∧
    ((Prog.run (s.list (str "///")).run (fun _ => .smooth []) (single (str "/x") (str "y"))).value =
        .ok [⟨str "/x", 1, false⟩] ∧
      s.key (str "/x") ≠ str "/x") :=
  ⟨by decide,
    ⟨lists_single (s3_lists _ _ _) (by decide) (by rfl), by rfl, by decide⟩,
    lists_single (s3_lists _ _ _) (by decide) (by rfl), by decide⟩

end FileEngine.ObjectStore
