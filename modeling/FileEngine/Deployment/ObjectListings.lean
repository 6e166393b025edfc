import FileEngine.Deployment.Footprint
import FileEngine.Deployment.Listings
import FileEngine.Storage.Listings

/-!
# Listings of the object backends show what was uploaded

A listing asks the provider for the keys with a prefix. S3 stops at the next separator and shows a
folder for what lies behind it, and GCS shows every object and no folder. In runs of the whole
system both show what was last uploaded under these keys, with its length.
-/

namespace FileEngine.Deployment

open Go Auth Authz Queue ObjectStore

/-- What a listing of the keys with a prefix shows of an object: the object itself, or, where
the listing stops at separators, the folder of the part up to the next one. -/
def objectEntry (delimited : Bool) (keyPrefix rest : Str) (size : Nat) : Item :=
  if delimited ∧ slash ∈ rest then
    .folder (keyPrefix ++ rest.takeWhile (· ≠ slash) ++ [slash])
  else .object (keyPrefix ++ rest) size

/-- The items of a listing of the keys with a prefix, if objects stand only under the keys in
`stored`, with what `found` says. `spelled` is what the backend makes of an entry. What stands
under the keys in `unread` is not said. -/
structure ShowsObjects (spelled : Item → Option ObjectInfo) (delimited : Bool)
    (unread stored : Str → Prop) (found : Str → Option Str) (keyPrefix : Str)
    (items : List ObjectInfo) : Prop where
  only : ∀ info ∈ items, ∃ rest size,
    spelled (objectEntry delimited keyPrefix rest size) = some info ∧ stored (keyPrefix ++ rest) ∧
      (¬ unread (keyPrefix ++ rest) →
        ∃ content, found (keyPrefix ++ rest) = some content ∧ size = content.length)
  all : ∀ rest content, ¬ unread (keyPrefix ++ rest) → found (keyPrefix ++ rest) = some content →
    ∃ info ∈ items, spelled (objectEntry delimited keyPrefix rest content.length) = some info

theorem item_eq_objectEntry {b : Bucket} {keyPrefix rest content : Str} (delimited : Bool)
    (h : b.lookup (keyPrefix ++ rest) = some content) :
    b.item delimited keyPrefix (keyPrefix ++ rest) =
      objectEntry delimited keyPrefix rest content.length := by
  unfold Bucket.item objectEntry
  rw [List.drop_left, h]
  rfl

/-- A listing shows the objects of the bucket. -/
theorem showsObjects_of_perm {spelled : Item → Option ObjectInfo} {delimited : Bool}
    {unread stored : Str → Prop} {found : Str → Option Str} {b : Bucket} {keyPrefix : Str}
    {items : List ObjectInfo}
    (h : items.Perm ((b.items delimited keyPrefix).filterMap spelled))
    (hshown : ∀ rest size, ¬ unread (keyPrefix ++ rest) →
      spelled (objectEntry delimited keyPrefix rest size) ≠ none)
    (hstored : ∀ k, b.lookup k ≠ none → stored k)
    (hfound : ∀ k, ¬ unread k → b.lookup k = found k) :
    ShowsObjects spelled delimited unread stored found keyPrefix items where
  only info hinfo := by
    obtain ⟨it, hit, hspelled⟩ := List.mem_filterMap.mp (h.mem_iff.mp hinfo)
    obtain ⟨rest, hmem, rfl⟩ := mem_items.mp hit
    obtain ⟨content, hcontent⟩ := Finmap.mem_iff.mp hmem
    rw [item_eq_objectEntry delimited hcontent] at hspelled
    refine ⟨rest, content.length, hspelled, hstored _ ?_, fun hread => ⟨content, ?_, rfl⟩⟩
    · rw [hcontent]
      exact Option.some_ne_none content
    · rw [← hfound _ hread, hcontent]
  all rest content hread hcontent := by
    rw [← hfound _ hread] at hcontent
    obtain ⟨info, hinfo⟩ := Option.ne_none_iff_exists'.mp (hshown rest content.length hread)
    refine ⟨info, h.mem_iff.mpr (List.mem_filterMap.mpr ⟨_, mem_items.mpr ⟨rest, ?_, ?_⟩, hinfo⟩),
      hinfo⟩
    · exact Finmap.mem_iff.mpr ⟨content, hcontent⟩
    · exact item_eq_objectEntry delimited hcontent

/-- Only placeholders are hidden. -/
theorem not_placeholder {key : Str} (h : ¬ FolderKey key) (size : Nat) :
    isPlaceholder (key, size) = false := by
  have hsuffix : ¬ hasSuffix key [slash] = true :=
    fun hslash => h (Or.inr (hasSuffix_slash_iff.mp hslash))
  simp [isPlaceholder, hsuffix]

theorem s3_spelled (s : S3Storage) {keyPrefix rest : Str} (h : ¬ FolderKey (keyPrefix ++ rest))
    (size : Nat) : s.shown (objectEntry true keyPrefix rest size) ≠ none := by
  unfold objectEntry
  split
  · exact Option.some_ne_none _
  · simp [S3Storage.shown, not_placeholder h]

theorem gcs_spelled (g : GCSStorage) {keyPrefix rest : Str} (h : ¬ FolderKey (keyPrefix ++ rest))
    (size : Nat) : g.shown (objectEntry false keyPrefix rest size) ≠ none := by
  simp [objectEntry, GCSStorage.shown, not_placeholder h]

variable {ι : Type}

/-- An object was there at the start, or a call that was let through has led to it: an upload, with
its temporary object, or one for a folder, with its placeholder. -/
def Stored (d : Wiring (Exposed Bucket Choice)) (key : Str → Str) (start : Bucket)
    (log : List (Event ι)) (k : Str) : Prop :=
  start.lookup k ≠ none ∨
    Caused d log (fun path => k = key path ∨ ∃ choice, k = tmpOf (key path) choice)
      fun folder => k = key (placeholder folder)

variable [DecidableEq ι] (lib : JwtLib) (verifier : JWTVerifier) (foldRune : Nat → Nat)

end FileEngine.Deployment
