import FileEngine.Fs.Jail
import FileEngine.Os.LinkCalls

/-!
# The file system of uploads, with symbolic links

`internal/filesystem/fs.go` once more, on trees with symbolic links and without failing
calls. `sanitizeAndJoin` resolves the links of a path only if all of the path is there, and
checks the joined path otherwise; the operations then follow the links that it has not seen. On
a tree without links this is the same as the other model (`linkFree_agrees`).

A program leaves a trail: the tree after each of its calls. `sanitizeAndJoin_iff` says all that
is accepted. `goes_atomicWriteFile` and `goes_copyFileContents` say through which trees a write
goes (`Passes`) and how it can end: the target is replaced as a whole, or nothing has changed
apart from new directories.
-/

namespace FileEngine.Linked

open Go Os Filesystem

/-! ## The operations -/

/-- What a program has returned, the tree at its end, and the tree after each call. -/
structure Ran (α : Type) where
  result : Except Error α
  tree : Tree
  trail : List Tree

/-- Programs on a tree that return an error or a result. -/
def TreeM (α : Type) := Tree → Ran α

instance : Monad TreeM where
  pure a := fun t => ⟨.ok a, t, []⟩
  bind p f := fun t =>
    let ran := p t
    match ran.result with
    | .error e => ⟨.error e, ran.tree, ran.trail⟩
    | .ok a =>
        let next := f a ran.tree
        ⟨next.result, next.tree, ran.trail ++ next.trail⟩

instance : MonadExcept Error TreeM where
  throw e := fun t => ⟨.error e, t, []⟩
  tryCatch p handle := fun t =>
    let ran := p t
    match ran.result with
    | .error e =>
        let next := handle e ran.tree
        ⟨next.result, next.tree, ran.trail ++ next.trail⟩
    | .ok _ => ran

section

variable {α : Type}

def TreeM.on (p : TreeM α) (t : Tree) : Except Error α × Tree := ((p t).result, (p t).tree)

/-- The trees that a program goes through, one after each call. -/
def TreeM.trail (p : TreeM α) (t : Tree) : List Tree := (p t).trail

/-- A system call, with its error as one of the package. -/
def call (f : Tree → Except Errno α × Tree) : TreeM α := fun t =>
  ⟨(f t).1.mapError .errno, (f t).2, [(f t).2]⟩

/-- A system call that changes nothing. -/
def look (f : Tree → Except Errno α) : TreeM α := call fun t => (f t, t)

/-- `fmt.Errorf("message: %w", err)` around the error of a program. -/
def failing (message : String) (p : TreeM α) : TreeM α := fun t =>
  ⟨(p t).result.mapError (.wrapped (str message)), (p t).tree, (p t).trail⟩

/-- `defer`: the cleanup comes after the body, whatever that returned, and cannot change it. -/
def deferring (cleanup body : TreeM Unit) : TreeM Unit := fun t =>
  let ran := body t
  ⟨ran.result, (cleanup ran.tree).tree, ran.trail ++ (cleanup ran.tree).trail⟩

/-- Run a program and hand on its error as a value. -/
def attempt (p : TreeM α) : TreeM (Except Error α) := fun t =>
  ⟨.ok (p t).result, (p t).tree, (p t).trail⟩

end

/-- `io.Copy` from a reader into a new file. -/
def ioCopy (l : Loc) (reads : Reads) : TreeM Unit := call fun t =>
  (match reads.err with
    | .eof => .ok ()
    | .other message => .error (.other message),
    t.write l reads.bytes)

/-- `io.Copy` from an open file into a new file; a directory cannot be read. -/
def copyItem (l : Loc) (x : Item) : TreeM Unit := call fun t =>
  match x with
  | .file content => (.ok (), t.write l content)
  | .dir => (.error .isdir, t)
  | .link _ => (.error .inval, t)

/-- `filepath.Abs`; the working directory may be unknown. -/
def abs (wd : Except Error Str) (path : Str) : Except Error Str :=
  if isAbs path then .ok (clean path) else wd.map fun wd => join [wd, path]

def newLocalFs (wd : Except Error Str) (baseRoot : Str) : Except Error LocalFs :=
  if baseRoot = [] then .error (.text (str "baseRoot is required"))
  else
    match abs wd baseRoot with
    | .error e => .error (.wrapped (str "cannot resolve baseRoot") e)
    | .ok abs => .ok ⟨clean abs⟩

def sanitizeAndJoin (l : LocalFs) (t : Tree) (parts : List Str) : Except Error Str :=
  match t.evalSymlinks (l.full parts) with
  | .ok fullEval => l.checkBase fullEval
  | .error _ => l.checkBase (l.full parts)

/-- The check as a step of a program. -/
def sanitized (l : LocalFs) (parts : List Str) : TreeM Str := fun t =>
  ⟨sanitizeAndJoin l t parts, t, [t]⟩

/-- `ctxErr` is `ctx.Err()` if the context is done. -/
def createFolder (l : LocalFs) (ctxErr : Option Error) (relParts : List Str) : TreeM Unit := do
  if let some e := ctxErr then throw e
  let full ← sanitized l relParts
  failing "mkdir failed" (call (·.mkdirAll full))

/-- `rand` is the random part of the name of the temporary file. `Sync` and `Close` do nothing
to the tree. -/
def atomicWriteFile (l : LocalFs) (ctxErr : Option Error) (rand : Str) (data : Reader)
    (targetParts : List Str) : TreeM Unit := do
  if let some e := ctxErr then throw e
  if targetParts = [] then throw (.text (str "target path required"))
  let targetFull ← sanitized l targetParts
  let parent := dir targetFull
  failing "ensure dir failed" (call (·.mkdirAll parent))
  let tmpFile ← failing "create temp file failed" (call (·.createTemp rand parent (str ".tmp-")))
  deferring (call (·.remove tmpFile.name)) do
    failing "write temp file failed" (ioCopy tmpFile.loc (data (32 * 1024)))
    let _ ← failing "chmod temp file failed" (look (·.stat tmpFile.name))
    failing "atomic rename failed" (call (·.rename tmpFile.name targetFull))

def copyFileContents (rand src dst : Str) : TreeM Unit := do
  let input ← failing "open src failed" (look (·.openFile src))
  let tmpDst ←
    failing "create tmp dst failed" (call (·.createTemp rand (dir dst) (str ".tmpcopy-")))
  deferring (call (·.remove tmpDst.name)) do
    failing "copy data failed" (copyItem tmpDst.loc input)
    let _ ← failing "chmod tmp dst failed" (look (·.stat tmpDst.name))
    failing "rename tmp to dst failed" (call (·.rename tmpDst.name dst))

def moveUploadedFile (l : LocalFs) (ctxErr : Option Error) (rand : Str)
    (srcParts dstParts : List Str) : TreeM Unit := do
  if let some e := ctxErr then throw e
  let srcFull ← failing "invalid src" (sanitized l srcParts)
  let dstFull ← failing "invalid dst" (sanitized l dstParts)
  failing "ensure dst dir failed" (call (·.mkdirAll (dir dstFull)))
  match ← attempt (call (·.rename srcFull dstFull)) with
  | .ok _ => return
  | .error _ =>
      failing "copy fallback failed" (copyFileContents rand srcFull dstFull)
      failing "remove src after copy failed" (call (·.remove srcFull))

/-- An error stands for `false` with that error. -/
def exists_ (l : LocalFs) (t : Tree) (relParts : List Str) : Except Error Bool :=
  match sanitizeAndJoin l t relParts with
  | .error e => .error e
  | .ok full =>
      match t.stat full with
      | .ok _ => .ok true
      | .error .noent => .ok false
      | .error e => .error (.errno e)

/-! ## What is accepted -/

/-- The location that a path denotes when all links in its existing components are followed. -/
def Denotes (t : Tree) (path : Str) (q : Loc) : Prop := t.Leads [] ((locate path).map Name.val) q

/-- Where the parts lead by their names. -/
abbrev dest (l : LocalFs) (parts : List Str) : Loc := Fs.LocalFs.dest ⟨l.baseRoot⟩ parts

section

variable {l : LocalFs} {t : Tree} {parts : List Str} {q : Loc}

/-- All that `sanitizeAndJoin` can return: the path with its links resolved, if that is possible,
and the joined path otherwise. -/
theorem sanitizeAndJoin_iff (habs : isAbs l.baseRoot = true) {p : Str} :
    sanitizeAndJoin l t parts = .ok p ↔ ∃ q, p = q.path ∧ Admits (locate l.baseRoot) q ∧
      (t.Resolves (dest l parts) q ∨
        (∀ q', ¬ t.Resolves (dest l parts) q') ∧ q = dest l parts) := by
  unfold sanitizeAndJoin
  rw [Fs.full_eq_dest habs]
  cases heval : t.evalSymlinks (dest l parts).path with
  | ok p' =>
    obtain ⟨q, hq, rfl⟩ := Tree.evalSymlinks_iff.mp heval
    rw [locate_path] at hq
    dsimp only
    rw [Fs.checkBase_iff habs]
    constructor
    · rintro ⟨rfl, hadmits⟩
      exact ⟨q, rfl, hadmits, Or.inl hq⟩
    · rintro ⟨q', rfl, hadmits, hq' | ⟨hnone, -⟩⟩
      · obtain rfl := hq.unique hq'
        exact ⟨rfl, hadmits⟩
      · exact absurd hq (hnone q)
  | error e =>
    have hnone : ∀ q, ¬ t.Resolves (dest l parts) q := by
      intro q hq
      have hok := Tree.evalSymlinks_iff.mpr ⟨q, (locate_path (dest l parts)).symm ▸ hq, rfl⟩
      rw [heval] at hok
      cases hok
    dsimp only
    rw [Fs.checkBase_iff habs]
    constructor
    · rintro ⟨rfl, hadmits⟩
      exact ⟨_, rfl, hadmits, Or.inr ⟨hnone, rfl⟩⟩
    · rintro ⟨q', rfl, hadmits, hq' | ⟨-, rfl⟩⟩
      · exact absurd hq' (hnone q')
      · exact ⟨rfl, hadmits⟩

theorem admits_of_accepted (habs : isAbs l.baseRoot = true)
    (h : sanitizeAndJoin l t parts = .ok (Loc.path q)) : Admits (locate l.baseRoot) q := by
  obtain ⟨q', hpath, hadmits, -⟩ := (sanitizeAndJoin_iff habs).mp h
  exact path_injective hpath ▸ hadmits

/-- Every place beneath the base can be asked for. -/
theorem dest_path (k : Loc) : dest l [k.path] = locate l.baseRoot ++ k := by
  show (locate l.baseRoot).reroot (join [k.path]) = _
  rw [reroot_join, Loc.reroot, if_pos (isAbs_path k), locate_path]

end

/-! ## Running programs -/

section

variable {α β : Type} {t t' : Tree} {I : Tree → Prop}

/-- The program goes through trees in `I` only, and ends in `Q`. -/
structure Goes (I : Tree → Prop) (Q : Except Error α → Tree → Prop) (p : TreeM α) (t : Tree) :
    Prop where
  trail : ∀ t' ∈ p.trail t, I t'
  ends : Q (p.on t).1 (p.on t).2

theorem goes_mono {p : TreeM α} {I' : Tree → Prop} {Q Q' : Except Error α → Tree → Prop}
    (hI : ∀ t', I t' → I' t') (hQ : ∀ r t', Q r t' → Q' r t') (h : Goes I Q p t) :
    Goes I' Q' p t :=
  ⟨fun t' hmem => hI t' (h.trail t' hmem), hQ _ _ h.ends⟩

theorem goes_throw {Q : Except Error α → Tree → Prop} {e : Error} (h : Q (.error e) t) :
    Goes I Q (throw e) t :=
  ⟨fun _ hmem => absurd hmem List.not_mem_nil, h⟩

theorem goes_bind {p : TreeM α} {f : α → TreeM β} {Q : Except Error β → Tree → Prop}
    (h : Goes I (fun r t' => match r with
      | .ok a => Goes I Q (f a) t'
      | .error e => Q (.error e) t') p t) : Goes I Q (p >>= f) t := by
  obtain ⟨htrail, hends⟩ := h
  cases hran : p t with
  | mk result tree trail =>
    simp only [TreeM.trail, TreeM.on, hran] at htrail hends
    cases result with
    | error e =>
      refine ⟨?_, ?_⟩
      · simpa only [TreeM.trail, bind, hran] using htrail
      · simpa only [TreeM.on, bind, hran] using hends
    | ok a =>
      refine ⟨fun t' hmem => ?_, ?_⟩
      · simp only [TreeM.trail, bind, hran, List.mem_append] at hmem
        rcases hmem with hmem | hmem
        · exact htrail t' hmem
        · exact hends.trail t' hmem
      · simpa only [TreeM.on, bind, hran] using hends.ends

/-- The trees of the first program are on the way of both. -/
theorem trail_left {p : TreeM α} {f : α → TreeM β} (h : t' ∈ p.trail t) :
    t' ∈ (p >>= f).trail t := by
  cases hran : p t with
  | mk result tree trail =>
    simp only [TreeM.trail, hran] at h
    cases result with
    | error e => simpa only [TreeM.trail, bind, hran] using h
    | ok a =>
      simp only [TreeM.trail, bind, hran]
      exact List.mem_append_left _ h

theorem trail_right {p : TreeM α} {f : α → TreeM β} {a : α} {t₁ : Tree}
    (hp : p.on t = (.ok a, t₁)) (h : t' ∈ (f a).trail t₁) : t' ∈ (p >>= f).trail t := by
  cases hran : p t with
  | mk result tree trail =>
    simp only [TreeM.on, hran] at hp
    cases hp
    simp only [TreeM.trail, bind, hran]
    exact List.mem_append_right _ h

theorem on_failing_call {message : String} {f : Tree → Except Errno α × Tree} {a : α}
    (h : f t = (.ok a, t')) : (failing message (call f)).on t = (.ok a, t') := by
  simp [TreeM.on, failing, call, h, Except.mapError]

/-- A call, with its outcome. -/
theorem goes_call {f : Tree → Except Errno α × Tree} {Q : Except Error α → Tree → Prop}
    {r : Except Errno α} (h : f t = (r, t')) (hI : I t') (hQ : Q (r.mapError .errno) t') :
    Goes I Q (call f) t := by
  refine ⟨fun t₁ hmem => ?_, ?_⟩
  · obtain rfl : t₁ = (f t).2 := List.mem_singleton.mp hmem
    rw [h]
    exact hI
  · show Q ((f t).1.mapError .errno) (f t).2
    rw [h]
    exact hQ

theorem goes_look {f : Tree → Except Errno α} {Q : Except Error α → Tree → Prop} (hI : I t)
    (h : Q ((f t).mapError .errno) t) : Goes I Q (look f) t :=
  goes_call rfl hI h

theorem goes_attempt {p : TreeM α} {Q : Except Error (Except Error α) → Tree → Prop}
    (h : Goes I (fun r t' => Q (.ok r) t') p t) : Goes I Q (attempt p) t :=
  ⟨h.trail, h.ends⟩

theorem goes_failing {message : String} {p : TreeM α} {Q : Except Error α → Tree → Prop}
    (h : Goes I (fun r t' => Q (r.mapError (.wrapped (str message))) t') p t) :
    Goes I Q (failing message p) t :=
  ⟨h.trail, h.ends⟩

theorem goes_deferring {cleanup body : TreeM Unit} {Q : Except Error Unit → Tree → Prop}
    (h : Goes I (fun r t' => Goes I (fun _ t'' => Q r t'') cleanup t') body t) :
    Goes I Q (deferring cleanup body) t := by
  refine ⟨fun t' hmem => ?_, h.ends.ends⟩
  rcases List.mem_append.mp hmem with hmem | hmem
  · exact h.trail t' hmem
  · exact h.ends.trail t' hmem

/-- A file is made in the directory to which `k` leads, filled and renamed, and its name is
removed. Only the rename is of interest: before it, an error leaves the tree as it was. -/
theorem goes_throughTemp {k d : Loc} {rand pre target : Str} {m₀ m₁ m₂ m₃ : String}
    {fill : Tree.Temp → TreeM Unit} {Q : Except Error Unit → Tree → Prop}
    (hk : t.lookup k = .ok d) (hd : t.node d = some .dir)
    (hsame : ∀ t', (∀ l, t'.node l = t.node l) → I t')
    (htemp : ∀ m content t', m.val = pre ++ rand → t.HasTemp k d m content t' → I t')
    (hfill : ∀ m name t₂, t.HasTemp k d m [] t₂ →
      Goes (fun t' => ∃ content, t.HasTemp k d m content t')
        (fun _ t' => ∃ content, t.HasTemp k d m content t') (fill ⟨d ++ [m], name⟩) t₂)
    (herr : ∀ e t', (∀ l, t'.node l = t.node l) → Q (.error e) t')
    (hrename : ∀ m content name t₃, m.val = pre ++ rand → locate name = k ++ [m] →
      t.HasTemp k d m content t₃ → I (t₃.rename name target).2 ∧
        I ((t₃.rename name target).2.remove name).2 ∧
        Q (((t₃.rename name target).1.mapError Error.errno).mapError (Error.wrapped (str m₃)))
          ((t₃.rename name target).2.remove name).2) :
    Goes I Q (do
      let tmp ← failing m₀ (call (·.createTemp rand k.path pre))
      deferring (call (·.remove tmp.name)) do
        failing m₁ (fill tmp)
        let _ ← failing m₂ (look (·.stat tmp.name))
        failing m₃ (call (·.rename tmp.name target))) t := by
  refine goes_bind (goes_failing ?_)
  rcases t.createTemp_cases rand k.path pre with
    ⟨e, heq⟩ | ⟨m, d', hroom, hm, hk', -, hfree, heq⟩
  · exact goes_call heq (hsame t fun _ => rfl) (herr _ t fun _ => rfl)
  · rw [locate_path, hk] at hk'
    cases hk'
    have hput : t.HasTemp k d m [] (t.put (d ++ [m]) (.file []) hroom) :=
      Tree.hasTemp_put hk hd hfree hroom
    refine goes_call heq (htemp m [] _ hm hput) ?_
    have hname : locate (FS.joinPath k.path m.val) = k ++ [m] := by
      rw [FS.locate_joinPath, locate_path]
    generalize FS.joinPath k.path m.val = name at hname ⊢
    have hfilled := hfill m name _ hput
    generalize t.put (d ++ [m]) (.file []) hroom = t₂ at hfilled ⊢
    -- after an error the name of the temporary file is removed, and that is all
    have hremoved : ∀ (e : Error) content t₃, t.HasTemp k d m content t₃ →
        Goes I (fun _ t' => Q (.error e) t') (call (·.remove name)) t₃ := by
      intro e content t₃ h
      exact goes_call rfl (hsame _ (h.remove hname)) (herr _ _ (h.remove hname))
    refine goes_deferring (goes_bind (goes_failing ⟨fun t' hmem => ?_, ?_⟩))
    · obtain ⟨content, h⟩ := hfilled.trail t' hmem
      exact htemp m content t' hm h
    · obtain ⟨content, h⟩ := hfilled.ends
      cases ((fill ⟨d ++ [m], name⟩).on t₂).1 with
      | error e => exact hremoved _ content _ h
      | ok _ =>
        refine goes_bind (goes_failing (goes_look (htemp m content _ hm h) ?_))
        cases (((fill ⟨d ++ [m], name⟩).on t₂).2.stat name) with
        | error e => exact hremoved _ content _ h
        | ok _ =>
          obtain ⟨hmoved, hremove, hQ⟩ := hrename m content name _ hm hname h
          exact goes_failing (goes_call rfl hmoved (goes_call rfl hremove hQ))

end

/-! ## How a write can end -/

section

variable {l : LocalFs} {t t₁ : Tree} {parts : List Str} {k d D : Loc} {n m : Name}
  {content name target : Str}

/-- How the writing of a temporary file can end, that is renamed from `m` to `n` in the
directory `d`. -/
inductive Settled (t : Tree) (d : Loc) (n m : Name) (content : Str) :
    Except Error Unit → Tree → Prop
  | failed {t' : Tree} (e : Error) : (∀ l, t'.node l = t.node l) →
      Settled t d n m content (.error e) t'
  | lost {t' : Tree} : n = m → (∀ l, t'.node l = t.node l) → Settled t d n m content (.ok ()) t'
  | written {t' : Tree} : n ≠ m → t.node (d ++ [n]) ≠ some .dir →
      t'.node (d ++ [n]) = some (.file content) → (∀ l, l ≠ d ++ [n] → t'.node l = t.node l) →
      Settled t d n m content (.ok ()) t'

theorem settled_of_install {t₃ : Tree} (message : Str) (h : t.HasTemp k d m content t₃)
    (hname : locate name = k ++ [m]) (htarget : locate target = k ++ [n])
    (hfail : t.linkAt (d ++ [n]) ≠ none → ∀ q, ¬ t.Resolves (k ++ [n]) q) :
    Settled t d n m content
      (((t₃.rename name target).1.mapError Error.errno).mapError (Error.wrapped message))
      ((t₃.rename name target).2.remove name).2 := by
  rcases h.install hname htarget hfail with ⟨hres, hsame⟩ | ⟨hok, hnm, hdir, hfile, hsame⟩
  · cases hrename : (t₃.rename name target).1 with
    | error e => exact .failed _ hsame
    | ok _ =>
      refine .lost (hres.resolve_left ?_) hsame
      rintro ⟨e, he⟩
      rw [hrename] at he
      cases he
  · rw [hok]
    exact .written hnm hdir hfile hsame

theorem extends_of_same {t' : Tree} (h : ∀ l, t'.node l = t.node l) : t'.Extends t := by
  intro k x hk
  exact ⟨x, (h k).symm.trans hk, by cases x <;> simp [Item.Like]⟩

/-- A directory that is found afterwards was found before. -/
theorem Settled.lookup {r : Except Error Unit} {t' : Tree} (h : Settled t d n m content r t')
    (hk : t'.lookup k = .ok D) (hdir : t'.node D = some .dir) : t.lookup k = .ok D := by
  cases h with
  | failed e hsame => exact Tree.lookup_extend (extends_of_same hsame) hk
  | lost _ hsame => exact Tree.lookup_extend (extends_of_same hsame) hk
  | written _ _ hfile hsame =>
    obtain ⟨j, hj, hwalks⟩ := Tree.lookup_iff.mp hk
    exact Tree.lookup_iff.mpr ⟨j, hj, hwalks.around hdir hfile hsame⟩

/-- The trees through which such a write goes: `t` itself, `t` with the temporary file, and `t`
with the target. -/
inductive Passes (t : Tree) (d : Loc) (n m : Name) : Tree → Prop
  | same {t' : Tree} : (∀ l, t'.node l = t.node l) → Passes t d n m t'
  | temp {t' : Tree} : (∀ l, l ≠ d ++ [m] → t'.node l = t.node l) → Passes t d n m t'
  | target {t' : Tree} : (∀ l, l ≠ d ++ [n] → t'.node l = t.node l) → Passes t d n m t'

theorem passes_rename {t₃ : Tree} (h : t.HasTemp k d m content t₃)
    (hname : locate name = k ++ [m]) (htarget : locate target = k ++ [n]) :
    Passes t d n m (t₃.rename name target).2 := by
  rcases h.rename_cases hname htarget with ⟨e, heq⟩ | ⟨_, heq⟩ | ⟨t₄, heq, -, -, hnode⟩
  · rw [heq]
    exact .temp h.same
  · rw [heq]
    exact .temp h.same
  · rw [heq]
    exact .target fun l hl => (hnode l).trans (if_neg hl)

theorem Settled.passes {r : Except Error Unit} {t' : Tree} (h : Settled t d n m content r t') :
    Passes t d n m t' := by
  cases h with
  | failed e hsame => exact .same hsame
  | lost _ hsame => exact .same hsame
  | written _ _ _ hsame => exact .target hsame

/-- The directory of an accepted target has been made. -/
structure Prepared (l : LocalFs) (t : Tree) (parts : List Str) (d : Loc) (n : Name) (D : Loc)
    (t₁ : Tree) : Prop where
  accepted : sanitizeAndJoin l t parts = .ok (Loc.path (d ++ [n]))
  lookup : t₁.lookup d = .ok D
  dir : t₁.node D = some .dir
  grows : t.Grows D t₁
  fail : t₁.linkAt (D ++ [n]) ≠ none → ∀ q, ¬ t₁.Resolves (d ++ [n]) q

theorem Prepared.leads (h : Prepared l t parts d n D t₁) : t.Leads [] (d.map Name.val) D :=
  (Tree.lookup_leads h.lookup).congr fun l => (h.grows.linkAt l).symm

theorem prepare (habs : isAbs l.baseRoot = true)
    (hok : sanitizeAndJoin l t parts = .ok (Loc.path (d ++ [n]))) :
    (∃ e, t.mkdirAll d.path = (.error e, t)) ∨
      ∃ D t₁, t.mkdirAll d.path = (.ok (), t₁) ∧ Prepared l t parts d n D t₁ := by
  rcases t.mkdirAll_spec d.path with herr | ⟨D, t₁, hmade, hlookup, hdir, hgrows, hnew⟩
  · exact Or.inl herr
  · rw [locate_path] at hlookup
    refine Or.inr ⟨D, t₁, hmade, hok, hlookup, hdir, hgrows, fun hlink q' hq' => ?_⟩
    rcases hnew with rfl | hempty
    · obtain ⟨q, hpath, -, hq | ⟨hnone, hq⟩⟩ := (sanitizeAndJoin_iff habs).mp hok
      · -- what `EvalSymlinks` returned is not a link
        obtain rfl := path_injective hpath
        rw [Tree.lookup_self (Or.inl (Tree.dir_of_child hq.node.1))] at hlookup
        cases hlookup
        exact hlink hq.node.2
      · rw [path_injective hpath, hq] at hq'
        exact hnone q' hq'
    · exact hlink (by simp [Tree.linkAt, hempty n])

section

variable {α : Type} {f : Str → TreeM α} {I : Tree → Prop} {Q : Except Error α → Tree → Prop}

/-- The check, whatever is made of its error. -/
theorem goes_checked (habs : isAbs l.baseRoot = true) {check : TreeM Str} (wrap : Error → Error)
    (hcheck : check t = ⟨(sanitizeAndJoin l t parts).mapError wrap, t, [t]⟩) (hI : I t)
    (herr : ∀ e, Q (.error e) t)
    (hok : ∀ q, sanitizeAndJoin l t parts = .ok (Loc.path q) → Goes I Q (f (Loc.path q)) t) :
    Goes I Q (check >>= f) t := by
  refine goes_bind ⟨fun t' hmem => ?_, ?_⟩
  · rw [TreeM.trail, hcheck] at hmem
    exact List.mem_singleton.mp hmem ▸ hI
  · simp only [TreeM.on, hcheck]
    cases h : sanitizeAndJoin l t parts with
    | error e => exact herr _
    | ok p =>
      obtain ⟨q, rfl, -⟩ := (sanitizeAndJoin_iff habs).mp h
      exact hok q h

theorem goes_sanitized (habs : isAbs l.baseRoot = true) (hI : I t) (herr : ∀ e, Q (.error e) t)
    (hok : ∀ q, sanitizeAndJoin l t parts = .ok (Loc.path q) → Goes I Q (f (Loc.path q)) t) :
    Goes I Q (sanitized l parts >>= f) t := by
  refine goes_checked habs id ?_ hI herr hok
  show (⟨sanitizeAndJoin l t parts, t, [t]⟩ : Ran Str) = _
  cases sanitizeAndJoin l t parts <;> rfl

theorem goes_invalid (habs : isAbs l.baseRoot = true) {message : String} (hI : I t)
    (herr : ∀ e, Q (.error e) t)
    (hok : ∀ q, sanitizeAndJoin l t parts = .ok (Loc.path q) → Goes I Q (f (Loc.path q)) t) :
    Goes I Q (failing message (sanitized l parts) >>= f) t :=
  goes_checked habs (.wrapped (str message)) rfl hI herr hok

end

/-- How `AtomicWriteFile` can end. -/
inductive Wrote (l : LocalFs) (t : Tree) (parts : List Str) (rand : Str) :
    Except Error Unit → Tree → Prop
  | refused {t' : Tree} (e : Error) : (∀ k, t'.node k = t.node k) →
      Wrote l t parts rand (.error e) t'
  | settled {d : Loc} {n : Name} {D : Loc} {t₁ : Tree} {m : Name} {content : Str}
      {r : Except Error Unit} {t' : Tree} : Prepared l t parts d n D t₁ →
      m.val = str ".tmp-" ++ rand → t₁.node (D ++ [m]) = none → Settled t₁ D n m content r t' →
      Wrote l t parts rand r t'
  | failed {d : Loc} {n : Name} {D : Loc} {t₁ t' : Tree} (e : Error) :
      Prepared l t parts d n D t₁ → (∀ k, t'.node k = t₁.node k) →
      Wrote l t parts rand (.error e) t'

/-- Where `AtomicWriteFile` passes on its way: it has changed nothing yet, it has made the
directory of the target and is writing there, or the target is the root. -/
inductive Writes (l : LocalFs) (t : Tree) (parts : List Str) : Tree → Prop
  | unchanged {t' : Tree} : (∀ k, t'.node k = t.node k) → Writes l t parts t'
  | beneath {d : Loc} {n : Name} {D : Loc} {t₁ : Tree} {m : Name} {t' : Tree} :
      Prepared l t parts d n D t₁ → Passes t₁ D n m t' → Writes l t parts t'
  | root {t' : Tree} : sanitizeAndJoin l t parts = .ok (Loc.path []) → Writes l t parts t'

theorem goes_ioCopy {t₁ t₂ : Tree} (reads : Reads) (h : t₁.HasTemp k d m [] t₂) :
    Goes (fun t' => ∃ content, t₁.HasTemp k d m content t')
      (fun _ t' => ∃ content, t₁.HasTemp k d m content t') (ioCopy (d ++ [m]) reads) t₂ :=
  goes_call rfl ⟨_, h.write _⟩ ⟨_, h.write _⟩

theorem goes_copyItem {t₁ t₂ : Tree} (x : Item) (h : t₁.HasTemp k d m [] t₂) :
    Goes (fun t' => ∃ content, t₁.HasTemp k d m content t')
      (fun _ t' => ∃ content, t₁.HasTemp k d m content t') (copyItem (d ++ [m]) x) t₂ := by
  cases x with
  | dir => exact goes_call rfl ⟨_, h⟩ ⟨_, h⟩
  | file content => exact goes_call rfl ⟨_, h.write _⟩ ⟨_, h.write _⟩
  | link target => exact goes_call rfl ⟨_, h⟩ ⟨_, h⟩

/-- A write to an accepted target whose directory has been made. -/
theorem Prepared.goes_throughTemp {t' : Tree} (h : Prepared l t parts d n D t')
    {rand pre : Str} {m₀ m₁ m₂ m₃ : String} {fill : Tree.Temp → TreeM Unit}
    (hfill : ∀ m name t₂, t'.HasTemp d D m [] t₂ →
      Goes (fun t₃ => ∃ content, t'.HasTemp d D m content t₃)
        (fun _ t₃ => ∃ content, t'.HasTemp d D m content t₃) (fill ⟨D ++ [m], name⟩) t₂) :
    Goes (fun t₂ => ∃ m, Passes t' D n m t₂)
      (fun r t₂ => (∃ e, r = .error e ∧ ∀ k, t₂.node k = t'.node k) ∨
        ∃ m content, m.val = pre ++ rand ∧ t'.node (D ++ [m]) = none ∧
          Settled t' D n m content r t₂)
      (do
        let tmp ← failing m₀ (call (·.createTemp rand d.path pre))
        deferring (call (·.remove tmp.name)) do
          failing m₁ (fill tmp)
          let _ ← failing m₂ (look (·.stat tmp.name))
          failing m₃ (call (·.rename tmp.name (Loc.path (d ++ [n]))))) t' := by
  refine Linked.goes_throughTemp h.lookup h.dir (fun t₂ hsame => ⟨n, .same hsame⟩)
    (fun m content t₂ _ htemp => ⟨m, .temp htemp.same⟩) hfill
    (fun e t₂ hsame => Or.inl ⟨e, rfl, hsame⟩) fun m content name t₃ hm hname htemp => ?_
  have htarget := locate_path (d ++ [n])
  have hsettled := settled_of_install (str m₃) htemp hname htarget h.fail
  exact ⟨⟨m, passes_rename htemp hname htarget⟩, ⟨m, hsettled.passes⟩,
    Or.inr ⟨m, content, hm, htemp.free, hsettled⟩⟩

theorem goes_atomicWriteFile (habs : isAbs l.baseRoot = true) (ctxErr : Option Error)
    (rand : Str) (data : Reader) (parts : List Str) (t : Tree) :
    Goes (Writes l t parts) (Wrote l t parts rand)
      (atomicWriteFile l ctxErr rand data parts) t := by
  have hstart : Writes l t parts t := .unchanged fun _ => rfl
  unfold atomicWriteFile
  cases ctxErr with
  | some e => exact goes_bind (goes_throw (.refused e fun _ => rfl))
  | none =>
    by_cases hparts : parts = []
    · rw [if_pos hparts]
      exact goes_bind (goes_throw (.refused _ fun _ => rfl))
    · rw [if_neg hparts]
      refine goes_sanitized habs hstart (fun e => .refused e fun _ => rfl) fun q hok => ?_
      rcases List.eq_nil_or_concat' q with rfl | ⟨d, n, rfl⟩
      · -- the root is not replaced
        have hmade : t.mkdirAll (dir (Loc.path [])) = (.ok (), t) := rfl
        refine goes_bind (goes_failing (goes_call hmade hstart ?_))
        refine goes_throughTemp (k := []) (Tree.lookup_self (Or.inl t.root)) t.root
          (fun _ _ => .root hok) (fun _ _ _ _ _ => .root hok)
          (fun m name t₂ h => goes_ioCopy _ h) (fun e t' hsame => .refused e hsame)
          fun m content name t₃ _ hname h => ⟨.root hok, .root hok, ?_⟩
        obtain ⟨e, heq⟩ := Tree.rename_root t₃ name (locate_path [])
        rw [heq]
        exact .refused _ (h.remove hname)
      · rw [dir_path, List.dropLast_concat]
        rcases prepare habs hok with ⟨e, heq⟩ | ⟨D, t₁, heq, hprep⟩
        · exact goes_bind (goes_failing (goes_call heq hstart (.refused _ fun _ => rfl)))
        · refine goes_bind (goes_failing (goes_call heq
            (.beneath (m := n) hprep (.same fun _ => rfl)) ?_))
          refine goes_mono (fun t' ⟨m, hpasses⟩ => .beneath hprep hpasses) (fun r t' hr => ?_)
            (hprep.goes_throughTemp fun m name t₂ h => goes_ioCopy _ h)
          rcases hr with ⟨e, rfl, hsame⟩ | ⟨m, content, hm, hfree, hsettled⟩
          · exact .failed e hprep hsame
          · exact .settled hprep hm hfree hsettled

theorem goes_copyFileContents (h : Prepared l t parts d n D t₁) (rand src : Str) :
    Goes (fun t' => ∃ m, Passes t₁ D n m t')
      (fun r t' => ∃ m content, Settled t₁ D n m content r t')
      (copyFileContents rand src (Loc.path (d ++ [n]))) t₁ := by
  have hstart : ∃ m, Passes t₁ D n m t₁ := ⟨n, .same fun _ => rfl⟩
  unfold copyFileContents
  rw [dir_path, List.dropLast_concat]
  refine goes_bind (goes_failing (goes_look hstart ?_))
  cases t₁.openFile src with
  | error e => exact ⟨n, [], .failed _ fun _ => rfl⟩
  | ok x =>
    refine goes_mono (fun _ h => h) (fun r t' hr => ?_) (h.goes_throughTemp fun m name t₂ htemp =>
      goes_copyItem x htemp)
    rcases hr with ⟨e, rfl, hsame⟩ | ⟨m, content, _, _, hsettled⟩
    · exact ⟨n, [], .failed e hsame⟩
    · exact ⟨m, content, hsettled⟩

end

end FileEngine.Linked
