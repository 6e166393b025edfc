import FileEngine.Storage.FailedWrites
import FileEngine.Storage.Listings

/-!
# Listing a bucket as a tree

A set of files, none of which stands above another, can be kept in a directory tree, with
directories on the way to the files, or in a bucket, under the keys of the files and with
placeholders for any of the directories. In a directory on the way to a file, S3 lists
the same entries from the bucket as the local backend does from the tree
(`s3_listing_refines`): an entry stands for a name in the directory, and it is a file or
a directory in both (`Entry`).
-/

namespace FileEngine.ObjectStore

open Go Os Local

/-- There is a file beneath this location. -/
def Above (F : Finset Loc) (l : Loc) : Prop := ∃ f ∈ F, l <+: f ∧ l ≠ f

/-- The tree beneath `root` has the files `F` and the directories on the way to them. -/
structure TreeOf (F : Finset Loc) (root : Loc) (t : FS) : Prop where
  file : ∀ l, (∃ content, t.look (root ++ l) = some (.file content)) ↔ l ∈ F
  dir : ∀ l, t.look (root ++ l) = some .dir ↔ Above F l

/-- The bucket has the files `F`, and placeholders for the folders `A`. -/
structure BucketOf (F A : Finset Loc) (ns : Str) (b : Bucket) : Prop where
  keys : ∀ k, k ∈ b ↔ (∃ f ∈ F, k = keyIn ns f.path) ∨ ∃ a ∈ A, k = keyIn ns (placeholder a.path)
  empty : ∀ a ∈ A, b.lookup (keyIn ns (placeholder a.path)) = some []
  folders : ∀ a ∈ A, a ≠ [] ∧ Above F a

/-- What the directory `l` has under the name `n`. -/
inductive Contains (F : Finset Loc) (l : Loc) (n : Name) : (isDir : Bool) → Prop
  | file : l ++ [n] ∈ F → Contains F l n false
  | dir : Above F (l ++ [n]) → Contains F l n true

/-- The path of an entry, and whether it is a directory. -/
def pathAndKind (info : ObjectInfo) : Str × Bool := (info.path, info.isDir)

theorem takeWhile_val (n : Name) (x : Str) :
    (n.val ++ slash :: x).takeWhile (· ≠ slash) = n.val := by
  rw [List.takeWhile_append_of_pos, List.takeWhile_cons_of_neg (by simp), List.append_nil]
  intro c hc
  simp only [decide_eq_true_eq]
  rintro rfl
  exact n.isName.2.2.2 hc

/-! ## The entries of the bucket -/

section

variable {F A : Finset Loc} {ns : Str} {b : Bucket} {l : Loc}

/-- The entry for a name of the directory. -/
def entry (b : Bucket) (ns : Str) (l : Loc) (n : Name) : Bool → Item
  | true => .folder (nsPart ns ++ Loc.dirPath (l ++ [n]))
  | false =>
      let key := nsPart ns ++ l.dirPath ++ n.val
      .object key ((b.lookup key).getD []).length

theorem item_dir (b : Bucket) (ns : Str) (l : Loc) (n : Name) (x : Str) :
    b.item true (nsPart ns ++ l.dirPath) (nsPart ns ++ l.dirPath ++ (n.val ++ slash :: x)) =
      entry b ns l n true := by
  rw [item_folder (by simp), takeWhile_val, entry, dirPath_append]
  simp

theorem item_file (b : Bucket) (ns : Str) (l : Loc) (n : Name) :
    b.item true (nsPart ns ++ l.dirPath) (nsPart ns ++ l.dirPath ++ n.val) = entry b ns l n false :=
  item_object (Or.inr n.isName.2.2.2)

theorem s3_shown_dir (s : S3Storage) (l : Loc) (n : Name) :
    s.shown (.folder (nsPart s.ns ++ Loc.dirPath (l ++ [n]))) =
      some ⟨Loc.path (l ++ [n]), 0, true⟩ := by
  have htrim : trimPrefix (nsPart s.ns ++ Loc.dirPath (l ++ [n])) (s.ns ++ [slash]) =
      l.dirPath ++ n.val ++ [slash] := by
    have hdir : Loc.dirPath (l ++ [n]) = l.dirPath ++ (n.val ++ [slash]) := by
      simp [dirPath_append]
    have hpre := hasPrefix_dirPath (l ++ [n]) (x := []) rfl
    rw [List.append_nil] at hpre
    rw [trimPrefix_nsPart, trimPrefix_slash_eq_self.mpr hpre, ite_self, hdir, List.append_assoc]
  simp only [S3Storage.shown]
  rw [htrim, trimSuffix_append, path_concat]
  rfl

theorem s3_shown_file (s : S3Storage) (l : Loc) (n : Name) (size : Nat) :
    s.shown (.object (nsPart s.ns ++ l.dirPath ++ n.val) size) =
      some ⟨Loc.path (l ++ [n]), size, false⟩ := by
  have hplace : isPlaceholder (nsPart s.ns ++ l.dirPath ++ n.val, size) = false := by
    have hlast := hasSuffix_val (nsPart s.ns ++ l.dirPath) n
    simp only [isPlaceholder, hlast]
    simp
  have hpre := hasPrefix_dirPath l (hasPrefix_val n)
  simp only [S3Storage.shown]
  rw [hplace, List.append_assoc, trimPrefix_nsPart, trimPrefix_slash_eq_self.mpr hpre, ite_self,
    path_concat]
  rfl

/-- What the bucket holds beneath a directory. -/
theorem key_cases (hb : BucketOf F A ns b) (hF : ∀ f ∈ F, ¬ Above F f) (hl : Above F l) {y : Str}
    (hy : nsPart ns ++ l.dirPath ++ y ∈ b) :
    (∃ n, l ++ [n] ∈ F ∧ y = n.val) ∨ (∃ n x, Above F (l ++ [n]) ∧ y = n.val ++ slash :: x) ∨
      (l ∈ A ∧ y = []) := by
  rcases (hb.keys _).mp hy with ⟨f, hf, hkey⟩ | ⟨a, ha, hkey⟩
  · rcases List.eq_nil_or_concat' f with rfl | ⟨m, n, rfl⟩
    · -- the root is no file, since it is above the others
      obtain ⟨g, hg, hlg, hne⟩ := hl
      refine absurd ⟨g, hg, List.nil_prefix, ?_⟩ (hF [] hf)
      rintro rfl
      exact hne (List.prefix_nil.mp hlg)
    · rw [keyIn_path_concat, List.append_assoc, List.append_cancel_left_eq] at hkey
      have hpre : l <+: m := (dirPath_prefix_iff n.isName.2.2.2).mp ⟨y, hkey⟩
      obtain ⟨r, rfl⟩ := hpre
      rw [dirPath_append, List.append_assoc, List.append_cancel_left_eq] at hkey
      cases r with
      | nil => exact Or.inl ⟨n, by simpa using hf, hkey⟩
      | cons q r =>
        refine Or.inr (Or.inl ⟨q, Loc.dirPath r ++ n.val, ⟨_, hf, ?_, ?_⟩, ?_⟩)
        · simp
        · simp
        · simpa using hkey
  · rw [keyIn_placeholder, List.append_assoc, List.append_cancel_left_eq] at hkey
    have hpre : l <+: a := by
      refine (dirPath_prefix_iff (x := []) (by simp)).mp ⟨y, ?_⟩
      rw [hkey, List.append_nil]
    obtain ⟨r, rfl⟩ := hpre
    rw [dirPath_append, List.append_cancel_left_eq] at hkey
    cases r with
    | nil => exact Or.inr (Or.inr ⟨by simpa using ha, hkey⟩)
    | cons q r =>
      obtain ⟨f, hf, hpre, hne⟩ := (hb.folders _ ha).2
      have hq : l ++ [q] <+: l ++ q :: r := by simp
      refine Or.inr (Or.inl ⟨q, Loc.dirPath r, ⟨f, hf, hq.trans hpre, ?_⟩, by simpa using hkey⟩)
      rintro rfl
      exact hne (hq.eq_of_length_le hpre.length_le).symm

theorem mem_items_iff (hb : BucketOf F A ns b) (hF : ∀ f ∈ F, ¬ Above F f) (hl : Above F l)
    (it : Item) : it ∈ b.items true (nsPart ns ++ l.dirPath) ↔
      (∃ n isDir, Contains F l n isDir ∧ it = entry b ns l n isDir) ∨
        (l ∈ A ∧ it = .object (nsPart ns ++ l.dirPath) 0) := by
  rw [mem_items]
  constructor
  · rintro ⟨y, hy, rfl⟩
    rcases key_cases hb hF hl hy with ⟨n, hn, rfl⟩ | ⟨n, x, hn, rfl⟩ | ⟨ha, rfl⟩
    · exact Or.inl ⟨n, false, .file hn, item_file b ns l n⟩
    · exact Or.inl ⟨n, true, .dir hn, item_dir b ns l n x⟩
    · have hempty := hb.empty l ha
      rw [keyIn_placeholder] at hempty
      refine Or.inr ⟨ha, ?_⟩
      rw [item_object (Or.inr List.not_mem_nil), List.append_nil, hempty]
      rfl
  · rintro (⟨n, isDir, hn, rfl⟩ | ⟨ha, rfl⟩)
    · cases hn with
      | file hn =>
        refine ⟨n.val, (hb.keys _).mpr (Or.inl ⟨_, hn, ?_⟩), item_file b ns l n⟩
        rw [keyIn_path_concat, List.append_assoc]
      | dir hn =>
        obtain ⟨f, hf, ⟨r, rfl⟩, hne⟩ := hn
        obtain ⟨m, q, rfl⟩ := (List.eq_nil_or_concat' r).resolve_left (by simpa using hne)
        refine ⟨n.val ++ slash :: (Loc.dirPath m ++ q.val),
          (hb.keys _).mpr (Or.inl ⟨_, hf, ?_⟩), item_dir b ns l n _⟩
        rw [← List.append_assoc (l ++ [n]), keyIn_path_concat]
        simp [dirPath_append]
    · refine ⟨[], (hb.keys _).mpr (Or.inr ⟨l, ha, ?_⟩), ?_⟩
      · rw [keyIn_placeholder, List.append_nil]
      · have hempty := hb.empty l ha
        rw [keyIn_placeholder] at hempty
        rw [item_object (Or.inr List.not_mem_nil), List.append_nil, hempty]
        rfl

theorem s3_shown_entry (s : S3Storage) (b : Bucket) (l : Loc) (n : Name) (isDir : Bool) :
    ∃ info, s.shown (entry b s.ns l n isDir) = some info ∧
      pathAndKind info = (Loc.path (l ++ [n]), isDir) := by
  cases isDir with
  | true => exact ⟨_, s3_shown_dir s l n, rfl⟩
  | false => exact ⟨_, s3_shown_file s l n _, rfl⟩

theorem s3_shown_placeholder (s : S3Storage) (hl : l ≠ []) :
    s.shown (.object (nsPart s.ns ++ l.dirPath) 0) = none := by
  obtain ⟨m, n, rfl⟩ := (List.eq_nil_or_concat' l).resolve_left hl
  refine if_pos ?_
  have hlast : hasSuffix (nsPart s.ns ++ Loc.dirPath (m ++ [n])) [slash] = true :=
    hasSuffix_iff.mpr ⟨nsPart s.ns ++ (Loc.dirPath m ++ n.val), by simp [dirPath_append]⟩
  simp [isPlaceholder, hlast]

/-- What is listed is what the directory contains, each entry once. -/
theorem s3_entries {s : S3Storage} (hb : BucketOf F A s.ns b) (hF : ∀ f ∈ F, ¬ Above F f)
    (hl : Above F l) :
    let listed := ((b.items true (s.listKey l.path)).filterMap s.shown).map pathAndKind
    (∀ p, p ∈ listed ↔ ∃ n isDir, Contains F l n isDir ∧ p = (Loc.path (l ++ [n]), isDir)) ∧
      listed.Nodup := by
  intro listed
  have hkey : s.listKey l.path = nsPart s.ns ++ l.dirPath := listKeyIn_path s.ns l
  have hshown : ∀ it ∈ b.items true (s.listKey l.path), ∀ info, s.shown it = some info →
      ∃ n isDir, Contains F l n isDir ∧ pathAndKind info = (Loc.path (l ++ [n]), isDir) ∧
        it = entry b s.ns l n isDir := by
    intro it hit info hinfo
    rw [hkey, mem_items_iff hb hF hl] at hit
    rcases hit with ⟨n, isDir, hn, rfl⟩ | ⟨ha, rfl⟩
    · obtain ⟨info', hinfo', hpair⟩ := s3_shown_entry s b l n isDir
      cases hinfo.symm.trans hinfo'
      exact ⟨n, isDir, hn, hpair, rfl⟩
    · cases (s3_shown_placeholder s (hb.folders l ha).1).symm.trans hinfo
  constructor
  · intro p
    rw [List.mem_map]
    constructor
    · rintro ⟨info, hinfo, rfl⟩
      obtain ⟨it, hit, hinfo⟩ := List.mem_filterMap.mp hinfo
      obtain ⟨n, isDir, hn, hpair, _⟩ := hshown it hit info hinfo
      exact ⟨n, isDir, hn, hpair⟩
    · rintro ⟨n, isDir, hn, rfl⟩
      obtain ⟨info, hinfo, hpair⟩ := s3_shown_entry s b l n isDir
      refine ⟨info, List.mem_filterMap.mpr ⟨entry b s.ns l n isDir, ?_, hinfo⟩, hpair⟩
      rw [hkey, mem_items_iff hb hF hl]
      exact Or.inl ⟨n, isDir, hn, rfl⟩
  · -- two entries with the same path and kind are the same entry
    rw [List.Nodup, List.pairwise_map, List.pairwise_filterMap]
    refine (nodup_items b true _).pairwise_of_forall_ne ?_
    intro it hit it' hit' hne info hinfo info' hinfo' hsame
    obtain ⟨n, isDir, _, hpair, rfl⟩ := hshown it hit info hinfo
    obtain ⟨n', isDir', _, hpair', rfl⟩ := hshown it' hit' info' hinfo'
    obtain ⟨hpath, rfl⟩ := Prod.mk.inj (hpair.symm.trans (hsame.trans hpair'))
    have hn : n = n' := by simpa using path_injective hpath
    exact hne (hn ▸ rfl)

end

/-! ## The entries of the tree -/

section

variable {F : Finset Loc} {t : FS} {l : Loc}

theorem contains_iff_look {root : Loc} (ht : TreeOf F root t) (n : Name) (isDir : Bool) :
    Contains F l n isDir ↔
      t.node (root ++ l ++ [n]) ≠ none ∧
      isDir = decide (t.look (root ++ l ++ [n]) = some .dir) := by
  rw [List.append_assoc, ne_eq, ← FS.look_eq_none]
  constructor
  · rintro (hn | hn)
    · obtain ⟨content, hlook⟩ := (ht.file _).mpr hn
      simp [hlook]
    · simp [(ht.dir _).mpr hn]
  · rintro ⟨hsome, rfl⟩
    obtain ⟨entry, hentry⟩ := Option.ne_none_iff_exists'.mp hsome
    cases entry with
    | dir =>
      rw [decide_eq_true hentry]
      exact .dir ((ht.dir _).mp hentry)
    | file content =>
      rw [hentry]
      exact .file ((ht.file _).mp ⟨content, hentry⟩)

theorem local_entries {s : LocalStorage} (ht : TreeOf F (locate s.base) t) (hl : Above F l)
    (dirSize : List Str → Int) {choice : Os.Choice} (hchoice : choice.fault = none)
    (lost : Str → Bool) :
    ∃ out, s.list dirSize choice lost l.path t = .ok out ∧
      (∀ p, p ∈ out.map pathAndKind ↔
        ∃ n isDir, Contains F l n isDir ∧ p = (Loc.path (l ++ [n]), isDir)) ∧
      (out.map pathAndKind).Nodup := by
  have hfull : locate (s.full l.path) = locate s.base ++ l := by
    rw [locate_full, locate_path]
  have hread : t.readDir choice (s.full l.path) = .ok (t.names (locate s.base ++ l)) := by
    simp only [FS.readDir, FS.stat, hchoice, hfull, (ht.dir l).mpr hl]
  refine ⟨_, (by simp only [LocalStorage.list, hread]; rfl), ?_, ?_⟩
  · intro p
    rw [List.map_map, List.mem_map]
    constructor
    · rintro ⟨c, hc, rfl⟩
      obtain ⟨n, rfl, hn⟩ := FS.mem_names.mp hc
      refine ⟨n, _, (contains_iff_look ht n _).mpr ⟨hn, rfl⟩, ?_⟩
      simp only [Function.comp_apply, pathAndKind, FS.locate_joinPath, hfull, join_name]
    · rintro ⟨n, isDir, hn, rfl⟩
      obtain ⟨hnode, rfl⟩ := (contains_iff_look ht n isDir).mp hn
      refine ⟨n.val, FS.mem_names.mpr ⟨n, rfl, hnode⟩, ?_⟩
      simp only [Function.comp_apply, pathAndKind, FS.locate_joinPath, hfull, join_name]
  · rw [List.map_map]
    refine List.Nodup.map_on ?_ (nodup_sorted _)
    intro c hc c' hc' hsame
    obtain ⟨n, rfl, _⟩ := FS.mem_names.mp hc
    obtain ⟨n', rfl, _⟩ := FS.mem_names.mp hc'
    simp only [Function.comp_apply, pathAndKind, join_name, Prod.mk.injEq] at hsame
    have hn : n = n' := by simpa using path_injective hsame.1
    rw [hn]

end

/-- **Listing a bucket as a tree.** The files `F`, none of which stands above another,
are kept in a bucket under any namespace, with placeholders for any folders on the way to
them, and in a tree under any base. In a directory with some file beneath it, S3 and the
local backend list the same paths as files and as directories, and no path twice. -/
theorem s3_listing_refines (s : S3Storage) (loc : LocalStorage) (F A : Finset Loc) (b : Bucket)
    (t : FS) (hF : ∀ f ∈ F, ¬ Above F f) (hb : BucketOf F A s.ns b)
    (ht : TreeOf F (locate loc.base) t) (l : Loc) (hl : Above F l) (choices : Nat → Choice)
    (hchoices : (choices 0).fault = none) (dirSize : List Str → Int) (choice : Os.Choice)
    (hchoice : choice.fault = none) (lost : Str → Bool) :
    ∃ out out', (Prog.run (s.list l.path).run choices b).value = .ok out ∧
      loc.list dirSize choice lost l.path t = .ok out' ∧
      (out.map pathAndKind).Nodup ∧ (out.map pathAndKind).Perm (out'.map pathAndKind) := by
  obtain ⟨out, hout, hperm⟩ := (s3_lists s l.path b choices).2 hchoices
  obtain ⟨out', hout', hmem', hnodup'⟩ := local_entries ht hl dirSize hchoice lost
  obtain ⟨hmem, hnodup⟩ := s3_entries hb hF hl
  have hperm' := hperm.map pathAndKind
  refine ⟨out, out', hout, hout', hperm'.nodup_iff.mpr hnodup, hperm'.trans ?_⟩
  refine (List.perm_ext_iff_of_nodup hnodup hnodup').mpr fun p => ?_
  rw [hmem, hmem']

/-! ## Two files -/

def fileName : Name := ⟨str "f", by decide⟩
def dirName : Name := ⟨str "a", by decide⟩
def siblingName : Name := ⟨str "ab", by decide⟩
def baseName : Name := ⟨str "srv", by decide⟩

/-- The files `/a/f` and `/ab`. -/
def twoFiles : Finset Loc := {[dirName, fileName], [siblingName]}

/-- The two files, beneath `/srv`. -/
def twoFilesTree : FS :=
  (((FS.empty.insert [baseName] true ⟨by simp, rfl, rfl⟩).insert [baseName, dirName] true
    ⟨by simp, rfl, rfl⟩).insert [baseName, dirName, fileName] false ⟨by simp, rfl, rfl⟩).insert
      [baseName, siblingName] false ⟨by simp, rfl, rfl⟩

/-- The two files, and a placeholder for the folder of the first one. -/
def twoFilesBucket : Bucket :=
  ((single (str "ns/a/f") (str "x")).insert (str "ns/ab") (str "y")).insert (str "ns/a/") []

theorem above_twoFiles {l : Loc} : Above twoFiles l ↔ l = [] ∨ l = [dirName] := by
  constructor
  · rintro ⟨f, hf, hpre, hne⟩
    have hinits := (List.mem_inits l f).mpr hpre
    rcases Finset.mem_insert.mp hf with rfl | hf
    · simpa [hne] using hinits
    · obtain rfl := Finset.mem_singleton.mp hf
      exact Or.inl (by simpa [hne] using hinits)
  · rintro (rfl | rfl)
    · exact ⟨[siblingName], by simp [twoFiles], by simp, by simp⟩
    · exact ⟨[dirName, fileName], by simp [twoFiles], by simp, by simp⟩

theorem look_twoFilesTree (l : Loc) : twoFilesTree.look ([baseName] ++ l) =
    if l ∈ twoFiles then some (.file [])
    else if l = [] ∨ l = [dirName] then some .dir else none := by
  rw [List.singleton_append, twoFilesTree]
  by_cases hsibling : l = [siblingName]
  · rw [hsibling, FS.look_insert_file]
    rfl
  · rw [FS.look_insert_of_ne (by simpa using hsibling)]
    by_cases hfile : l = [dirName, fileName]
    · rw [hfile, FS.look_insert_file]
      rfl
    · have hno : l ∉ twoFiles := by simp [twoFiles, hsibling, hfile]
      rw [FS.look_insert_of_ne (by simpa using hfile), if_neg hno]
      by_cases hdir : l = [dirName]
      · rw [hdir, FS.look_insert_dir]
        rfl
      · rw [FS.look_insert_of_ne (by simpa using hdir)]
        by_cases hroot : l = []
        · rw [hroot, FS.look_insert_dir]
          rfl
        · rw [FS.look_insert_of_ne (by simpa using hroot), if_neg (by simp [hroot, hdir])]
          rfl

theorem treeOf_twoFiles : TreeOf twoFiles [baseName] twoFilesTree where
  file l := by
    rw [look_twoFilesTree]
    by_cases hl : l ∈ twoFiles
    · simp [hl]
    · by_cases hdir : l = [] ∨ l = [dirName] <;> simp [hl, hdir]
  dir l := by
    rw [look_twoFilesTree, above_twoFiles]
    by_cases hl : l ∈ twoFiles
    · have hne : ¬ (l = [] ∨ l = [dirName]) := by
        rintro (rfl | rfl) <;> exact absurd hl (by decide)
      simp [hl, hne]
    · by_cases hdir : l = [] ∨ l = [dirName] <;> simp [hl, hdir]

theorem bucketOf_twoFiles : BucketOf twoFiles {[dirName]} (str "ns") twoFilesBucket where
  keys k := by
    have hfile : keyIn (str "ns") (Loc.path [dirName, fileName]) = str "ns/a/f" := by decide
    have hsibling : keyIn (str "ns") (Loc.path [siblingName]) = str "ns/ab" := by decide
    have hdir : keyIn (str "ns") (placeholder (Loc.path [dirName])) = str "ns/a/" := by decide
    simp only [twoFilesBucket, Finmap.mem_insert, single, Finmap.mem_singleton, twoFiles,
      Finset.mem_insert, Finset.mem_singleton, exists_eq_or_imp, exists_eq_left, hfile, hsibling,
      hdir]
    tauto
  empty a ha := by
    obtain rfl := Finset.mem_singleton.mp ha
    decide
  folders a ha := by
    obtain rfl := Finset.mem_singleton.mp ha
    exact ⟨by simp, above_twoFiles.mpr (Or.inr rfl)⟩

theorem s3_listing_refines_twoFiles :
    let listedAlike path := ∃ out out',
      (Prog.run (S3Storage.list ⟨str "bucket", str "ns"⟩ path).run (fun _ => .smooth [])
        twoFilesBucket).value = .ok out ∧
      LocalStorage.list (fun _ => 0) ⟨str "/srv"⟩ (.smooth []) (fun _ => false) path twoFilesTree =
        .ok out' ∧
      (out.map pathAndKind).Nodup ∧ (out.map pathAndKind).Perm (out'.map pathAndKind)
    listedAlike (str "/") ∧ listedAlike (str "/a") := by
  intro listedAlike
  have hflat : ∀ f ∈ twoFiles, ¬ Above twoFiles f := by
    intro f hf habove
    rcases above_twoFiles.mp habove with rfl | rfl <;> exact absurd hf (by decide)
  have hlisted : ∀ l, Above twoFiles l → listedAlike (Loc.path l) := fun l hl =>
    s3_listing_refines ⟨str "bucket", str "ns"⟩ ⟨str "/srv"⟩ twoFiles {[dirName]} twoFilesBucket
      twoFilesTree hflat bucketOf_twoFiles treeOf_twoFiles l hl _ rfl _ _ rfl _
  exact ⟨hlisted [] (above_twoFiles.mpr (Or.inl rfl)),
    hlisted [dirName] (above_twoFiles.mpr (Or.inr rfl))⟩

end FileEngine.ObjectStore
