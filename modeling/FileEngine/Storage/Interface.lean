import FileEngine.Go.Strings
import Mathlib.Data.List.Defs

/-!
# The storage interface

`internal/storage/storage.go`. A backend is a record of operations over its own state:
each returns an error or a result, and the state it leaves.

A reader is given by the results of its successive `Read` calls, which depend on the
length of the buffer: the chunks that come with no error, and the last one with its
error.
-/

namespace FileEngine

open Go

structure ObjectInfo where
  path : Str
  size : Int
  isDir : Bool

inductive ReadErr
  | eof
  | other (message : Str)

structure Reads where
  chunks : List Str
  last : Str
  err : ReadErr

/-- All bytes that are read. -/
def Reads.bytes (r : Reads) : Str := r.chunks.flatten ++ r.last

/-- The reads with a buffer of the given length. -/
abbrev Reader := Nat → Reads

/-- `content` is all that the reader has, read with the buffer of `io.Copy` and up to the end
of the file. -/
def Whole (r : Reader) (content : Str) : Prop :=
  (r (32 * 1024)).err = .eof ∧ content = (r (32 * 1024)).bytes

/-- `bytes.NewReader`: full buffers, and the end of file with an empty last read. -/
def newReader (content : Str) : Reader := fun n => ⟨content.toChunks n, [], .eof⟩

/-- An operation on a state that returns an error or a result. -/
abbrev Op (σ α : Type) := σ → Except Str α × σ

structure Storage (σ : Type) where
  createFolder : Str → Op σ Unit
  atomicWrite : Str → Reader → Op σ Unit
  move : Str → Str → Op σ Unit
  delete : Str → Op σ Unit
  exists_ : Str → Op σ Bool
  list : Str → Op σ (List ObjectInfo)
  open_ : Str → Op σ Reader

end FileEngine
