import FileEngine.Os.Calls

/-!
# The file system adapter of the worker

`internal/adapters/fs/local/local.go`. `sanitizeAndJoin` resolves a list of path parts
beneath the base and refuses what `Rel` shows to lie outside of it. `MoveUploadedFile`
renames, and falls back to copying; the files that it opened are closed when it returns,
and the errors of that are ignored.
-/

namespace FileEngine.Fs

open Go Os

structure LocalFs where
  baseRoot : Str

namespace LocalFs

/-- The path that `sanitizeAndJoin` checks. -/
def full (l : LocalFs) (parts : List Str) : Str :=
  let joined := join parts
  let cleaned := clean joined
  let cleaned := if isAbs cleaned then trimPrefix cleaned [slash] else cleaned
  join [l.baseRoot, cleaned]

def sanitizeAndJoin (l : LocalFs) (parts : List Str) : Except Str Str :=
  let full := l.full parts
  match rel l.baseRoot full with
  | .error e => .error e
  | .ok r => if hasPrefix r (str "..") then .error (str "outside base") else .ok full

theorem sanitizeAndJoin_cases (l : LocalFs) (parts : List Str) :
    (∃ e, l.sanitizeAndJoin parts = .error e) ∨ l.sanitizeAndJoin parts = .ok (l.full parts) := by
  unfold sanitizeAndJoin
  dsimp only
  split
  · exact Or.inl ⟨_, rfl⟩
  · split
    · exact Or.inl ⟨_, rfl⟩
    · exact Or.inr rfl

/-- The path of some parts, or the error of `sanitizeAndJoin`. -/
def resolveParts (l : LocalFs) (parts : List Str) : OsM Str :=
  match l.sanitizeAndJoin parts with
  | .error e => throw (.other e)
  | .ok full => return full

def createFolder (l : LocalFs) (parts : List Str) : OsM Unit := do
  let full ← l.resolveParts parts
  mkdirAll full

def moveUploadedFile (l : LocalFs) (src dst : List Str) : OsM Unit := do
  let srcF ← l.resolveParts src
  let dstF ← l.resolveParts dst
  mkdirAll (dir dstF)
  match ← Prog.attempt (rename srcF dstF) with
  | .ok _ => return
  | .error _ =>
      let input ← openFile srcF
      let out ← create dstF
      match ← Prog.attempt (copyFile out input) with
      | .error e =>
          closeFile out
          closeFile input
          throw e
      | .ok _ =>
          let removed ← Prog.attempt (remove srcF)
          closeFile out
          closeFile input
          match removed with
          | .error e => throw e
          | .ok _ => return

end LocalFs

end FileEngine.Fs
