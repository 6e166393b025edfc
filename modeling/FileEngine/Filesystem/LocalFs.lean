import FileEngine.Storage.Local

/-!
# The file system of uploads

`internal/filesystem/fs.go`. Both writers go through a temporary file that is renamed to
the target, and remove the name of the temporary file when they return, whether the
rename was made or not.

The tree has no symbolic links, so that `EvalSymlinks` finds nothing to replace. It has
no permissions either: `Chmod` and `Stat` look at what is there and may fail.
-/

namespace FileEngine.Filesystem

open Go Os Local

/-- An error with a text, one of a call, or one with a text in front. -/
inductive Error
  | text (message : Str)
  | errno (e : Errno)
  | wrapped (message : Str) (cause : Error)
deriving DecidableEq

abbrev FsM := ExceptT Error (Prog os)

/-- A system call, with its error as one of the package. -/
def call {α : Type} (p : OsM α) : FsM α :=
  ExceptT.mk (p.run >>= fun r => pure (r.mapError .errno))

/-- `fmt.Errorf("message: %w", err)` around the error of a program. -/
def failing {α : Type} (message : String) (p : FsM α) : FsM α :=
  ExceptT.mk (p.run >>= fun r => pure (r.mapError (.wrapped (str message))))

/-- `defer`: the cleanup comes after the body, whatever that returned, and cannot change it. -/
def deferring (cleanup : FsM Unit) (body : FsM Unit) : FsM Unit := do
  let result ← Prog.attempt body
  cleanup
  match result with
  | .error e => throw e
  | .ok _ => return

/-! ## Calls that change nothing -/

/-- A call on an open file that leaves the tree alone and may fail. -/
def checkHandle (h : Handle) : OsM Unit := Prog.step (Call.closeFile h) Prog.ret

/-- `Close` where its error counts. -/
def close (h : Handle) : OsM Unit := checkHandle h

def stat (h : Handle) : OsM Unit := checkHandle h

/-- `Sync`; both callers ignore its error. -/
def sync (h : Handle) : OsM Unit := do
  let _ ← Prog.attempt (checkHandle h)

def chmod (path : Str) : OsM Unit := do
  let _ ← openFile path

def evalSymlinks (path : Str) : OsM Str := do
  let _ ← openFile path
  return clean path

/-- The removal of a temporary file, with its error ignored. -/
def removeQuietly (path : Str) : OsM Unit := do
  let _ ← Prog.attempt (remove path)

/-- What is deferred for a temporary file: close it and remove its name. -/
def discardTemp (tmp : Handle) : FsM Unit := do
  call (closeFile tmp)
  call (removeQuietly tmp.name)

/-! ## `LocalFs` -/

structure LocalFs where
  baseRoot : Str
  deriving DecidableEq

namespace LocalFs

/-- The path of some parts beneath the base, before links are looked for. -/
def full (l : LocalFs) (parts : List Str) : Str :=
  let joined := join parts
  let cleaned := clean joined
  let cleaned := if isAbs cleaned then trimPrefix cleaned [slash] else cleaned
  join [l.baseRoot, cleaned]

/-- The check that the path is beneath the base. -/
def checkBase (l : LocalFs) (full : Str) : Except Error Str :=
  match rel l.baseRoot full with
  | .error e => .error (.wrapped (str "path outside base root") (.text e))
  | .ok r =>
      if hasPrefix r (str "..") then .error (.text (str "path outside base root")) else .ok full

def sanitizeAndJoin (l : LocalFs) (parts : List Str) : FsM Str := do
  match ← Prog.attempt (call (evalSymlinks (l.full parts))) with
  | .ok fullEval => ExceptT.mk (pure (l.checkBase fullEval))
  | .error _ => ExceptT.mk (pure (l.checkBase (l.full parts)))

/-- `ctxErr` is `ctx.Err()` if the context is done. -/
def atomicWriteFile (l : LocalFs) (ctxErr : Option Error) (data : Reader)
    (targetParts : List Str) : FsM Unit := do
  if let some e := ctxErr then throw e
  if targetParts = [] then throw (.text (str "target path required"))
  let targetFull ← l.sanitizeAndJoin targetParts
  let parent := dir targetFull
  failing "ensure dir failed" (call (mkdirAll parent))
  let tmpFile ← failing "create temp file failed" (call (createTemp parent (str ".tmp-")))
  deferring (discardTemp tmpFile) do
    failing "write temp file failed" (call (LocalStorage.ioCopy tmpFile (data (32 * 1024))))
    call (sync tmpFile)
    failing "close temp file failed" (call (close tmpFile))
    failing "chmod temp file failed" (call (chmod tmpFile.name))
    failing "atomic rename failed" (call (rename tmpFile.name targetFull))

def copyFileContents (src dst : Str) : FsM Unit := do
  let input ← failing "open src failed" (call (openFile src))
  deferring (call (closeFile input)) do
    failing "stat src failed" (call (stat input))
    let tmpDst ← failing "create tmp dst failed" (call (createTemp (dir dst) (str ".tmpcopy-")))
    deferring (discardTemp tmpDst) do
      failing "copy data failed" (call (copyFile tmpDst input))
      call (sync tmpDst)
      failing "close tmp dst failed" (call (close tmpDst))
      failing "chmod tmp dst failed" (call (chmod tmpDst.name))
      failing "rename tmp to dst failed" (call (rename tmpDst.name dst))

def moveUploadedFile (l : LocalFs) (ctxErr : Option Error) (srcParts dstParts : List Str) :
    FsM Unit := do
  if let some e := ctxErr then throw e
  let srcFull ← failing "invalid src" (l.sanitizeAndJoin srcParts)
  let dstFull ← failing "invalid dst" (l.sanitizeAndJoin dstParts)
  failing "ensure dst dir failed" (call (mkdirAll (dir dstFull)))
  match ← Prog.attempt (call (rename srcFull dstFull)) with
  | .ok _ => return
  | .error _ =>
      failing "copy fallback failed" (copyFileContents srcFull dstFull)
      failing "remove src after copy failed" (call (remove srcFull))

end LocalFs

end FileEngine.Filesystem
