import FileEngine.Storage.Bucket
import FileEngine.Storage.Interface

/-!
# The object backends

`internal/adapters/storage/s3` and `internal/adapters/storage/gcs` as programs of
requests to a bucket. Both write to a temporary key next to the final one, copy, and
delete the temporary key, and both move by copying and deleting.

* S3 names the source of a copy in the header `CopySource`, as bucket and key with the
  spaces escaped. `decode` is how the provider reads that header.
* GCS uploads through a `Writer`. Closing it finishes the object with all that was
  written so far, also after the reader failed; only a failed upload stays unfinished.
-/

namespace FileEngine.ObjectStore

open Go

/-- The temporary key of a write. -/
def tmpKey (finalKey suffix : Str) : Str := finalKey ++ str ".tmp-" ++ suffix

/-- `strings.TrimSuffix(path, "/") + "/"`: the placeholder of a folder. -/
def placeholder (path : Str) : Str := trimSuffix path [slash] ++ [slash]

/-- Placeholders of folders are not listed. -/
def isPlaceholder (object : Str × Nat) : Bool := hasSuffix object.1 [slash] ∧ object.2 = 0

namespace S3Storage

/-- `urlPathEscape`: only spaces are escaped. -/
def urlPathEscape (s : Str) : Str := replaceAll s (str " ") (str "%20")

theorem urlPathEscape_of_not_mem {s : Str} (h : 32 ∉ s) : urlPathEscape s = s := by
  induction s with
  | nil => rfl
  | cons c s ih =>
    obtain ⟨hc, hs⟩ := not_or.mp (mt List.mem_cons.mpr h)
    have hmiss : ¬ str " " <+: c :: s := by
      rintro ⟨rest, hrest⟩
      exact hc (List.cons.inj hrest).1
    rw [urlPathEscape, replaceAll_miss hmiss]
    exact congrArg (c :: ·) (ih hs)

def copySource (s : S3Storage) (key : Str) : Str := urlPathEscape (s.bucket ++ [slash] ++ key)

/-- `PutObject` with the rest of a reader as its body: if the reader fails, so does the
request. -/
def putObject (key : Str) (reads : Reads) : CloudM Unit :=
  match reads.err with
  | .eof => put key reads.bytes
  | .other message => throw message

/-- `CopyObject`; the source must be named within the bucket. -/
def copyObject (decode : Str → Str) (s : S3Storage) (key copySource : Str) : CloudM Unit :=
  let named := decode copySource
  if hasPrefix named (s.bucket ++ [slash]) then
    copy (named.drop (s.bucket ++ [slash]).length) key false
  else throw (str "NoSuchBucket")

def deleteObject (key : Str) : CloudM Unit := delete key true

def createFolder (s : S3Storage) (path : Str) : CloudM Unit := put (s.key (placeholder path)) []

def atomicWrite (decode : Str → Str) (s : S3Storage) (path : Str) (r : Reader) : CloudM Unit := do
  let finalKey := s.key path
  let suffix ← randHex 8
  let tmpKey := tmpKey finalKey suffix
  putObject tmpKey (r (32 * 1024))
  copyObject decode s finalKey (s.copySource tmpKey)
  let _ ← Prog.attempt (deleteObject tmpKey)

def move (decode : Str → Str) (s : S3Storage) (src dst : Str) : CloudM Unit := do
  let srcKey := s.key src
  let dstKey := s.key dst
  copyObject decode s dstKey (s.copySource srcKey)
  deleteObject srcKey

def delete (s : S3Storage) (path : Str) : CloudM Unit := deleteObject (s.key path)

/-- Every error of `HeadObject` counts as absence. -/
def exists_ (s : S3Storage) (path : Str) : CloudM Bool := do
  match ← Prog.attempt (get (s.key path)) with
  | .error _ => return false
  | .ok _ => return true

/-- The entries of a page: the common prefixes, and then the objects. -/
def listPage (s : S3Storage) (page : Page) : List ObjectInfo :=
  page.commonPrefixes.map (fun cp =>
      ⟨[slash] ++ trimSuffix (trimPrefix cp (s.ns ++ [slash])) [slash], 0, true⟩) ++
    (page.contents.filter fun object => ¬ isPlaceholder object).map fun object =>
      ⟨[slash] ++ trimPrefix object.1 (s.ns ++ [slash]), object.2, false⟩

def list (s : S3Storage) (listPrefix : Str) : CloudM (List ObjectInfo) := do
  let pages ← ObjectStore.list true (s.listKey listPrefix)
  return pages.flatMap s.listPage

def open_ (s : S3Storage) (path : Str) : CloudM Str := get (s.key path)

end S3Storage

namespace GCSStorage

/-- An upload: what was written so far, and whether a write has failed. -/
structure Writer where
  key : Str
  content : Str
  failed : Bool

def newWriter (key : Str) : Writer := ⟨key, [], false⟩

/-- Finish the object, unless the upload has failed. -/
def Writer.close (w : Writer) : CloudM Unit :=
  if w.failed then throw (str "upload failed") else put w.key w.content

/-- The writes of `io.Copy`: one for each read that returned something. -/
def copyChunks (w : Writer) : List Str → Prog cloud (Writer × Except Str Unit)
  | [] => return (w, .ok ())
  | chunk :: chunks => do
      if chunk ≠ [] then
        match ← send chunk with
        | .error e => return ({ w with failed := true }, .error e)
        | .ok _ => copyChunks { w with content := w.content ++ chunk } chunks
      else copyChunks w chunks

/-- How the copy goes on after a write. -/
def afterSend (w : Writer) (chunk : Str) (chunks : List Str) :
    Except Str Unit → Prog cloud (Writer × Except Str Unit)
  | .error e => return ({ w with failed := true }, .error e)
  | .ok _ => copyChunks { w with content := w.content ++ chunk } chunks

theorem copyChunks_cons (w : Writer) {chunk : Str} (h : chunk ≠ []) (chunks : List Str) :
    copyChunks w (chunk :: chunks) = send chunk >>= afterSend w chunk chunks := by
  rw [copyChunks, if_pos h]
  rfl

/-- `io.Copy` from a reader. -/
def ioCopy (w : Writer) (reads : Reads) : Prog cloud (Writer × Except Str Unit) := do
  match ← copyChunks w (reads.chunks ++ [reads.last]) with
  | (w, .error e) => return (w, .error e)
  | (w, .ok _) =>
      match reads.err with
      | .eof => return (w, .ok ())
      | .other message => return (w, .error message)

/-- `CopierFrom`. -/
def copier (dst src : Str) : CloudM Unit := copy src dst true

def deleteKey (key : Str) : CloudM Unit := ObjectStore.delete key false

def createFolder (g : GCSStorage) (path : Str) : CloudM Unit :=
  (newWriter (g.key (placeholder path))).close

def atomicWrite (g : GCSStorage) (path : Str) (r : Reader) : CloudM Unit := do
  let finalKey := g.key path
  let suffix ← randHex 8
  let tmpKey := tmpKey finalKey suffix
  let (tw, copied) ← ExceptT.lift (ioCopy (newWriter tmpKey) (r (32 * 1024)))
  match copied with
  | .error e => do
      let _ ← Prog.attempt tw.close
      throw e
  | .ok _ => do
      tw.close
      copier finalKey tmpKey
      let _ ← Prog.attempt (deleteKey tmpKey)

def move (g : GCSStorage) (src dst : Str) : CloudM Unit := do
  let srcKey := g.key src
  let dstKey := g.key dst
  copier dstKey srcKey
  deleteKey srcKey

def delete (g : GCSStorage) (path : Str) : CloudM Unit := deleteKey (g.key path)

/-- Every error of `Attrs` counts as absence. -/
def exists_ (g : GCSStorage) (path : Str) : CloudM Bool := do
  match ← Prog.attempt (get (g.key path)) with
  | .error _ => return false
  | .ok _ => return true

/-- The objects of a page; folders are not shown. -/
def listPage (g : GCSStorage) (page : Page) : List ObjectInfo :=
  (page.contents.filter fun object => ¬ isPlaceholder object).map fun object =>
    ⟨[slash] ++ (if g.ns ≠ [] then trimPrefix object.1 (g.ns ++ [slash]) else object.1),
      object.2, false⟩

def list (g : GCSStorage) (listPrefix : Str) : CloudM (List ObjectInfo) := do
  let pages ← ObjectStore.list false (g.listKey listPrefix)
  return pages.flatMap g.listPage

def open_ (g : GCSStorage) (path : Str) : CloudM Str := get (g.key path)

end GCSStorage

end FileEngine.ObjectStore
