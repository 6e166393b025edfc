import FileEngine.Storage.ObjectBackends
import FileEngine.Storage.Local

/-!
# What a storage is for

A storage keeps under every address what was last written there. `Contents` says this of a
backend, in terms of the operations that the server and the workers use: a write that succeeds
puts the whole content at its address and changes no other one, a write that fails changes none,
folders and listings do not matter, and `Open` gives what is there, or a part of it if reading
breaks off. On every backend there are addresses for which this is not promised (`Unkept`), such
as those of temporary files.

The operations meet an environment. In an `Exposed` state it is settled for every operation to
come what the environment will do to it: which calls fail and how far they get, which random
names are drawn, and where the reading of an opened object breaks off.
-/

namespace FileEngine

open Go

/-! ## Readers -/

theorem flatten_toChunks {α : Type} (n : Nat) (xs : List α) : (xs.toChunks n).flatten = xs := by
  have hgo : ∀ (rest : List α) (acc₁ : Array α) (acc₂ : Array (List α)),
      (List.toChunks.go n rest acc₁ acc₂).flatten =
        acc₂.toList.flatten ++ acc₁.toList ++ rest := by
    intro rest
    induction rest with
    | nil =>
      intro acc₁ acc₂
      simp [List.toChunks.go]
    | cons y rest ih =>
      intro acc₁ acc₂
      unfold List.toChunks.go
      split
      · simp [ih]
      · simp [ih]
  cases xs with
  | nil => simp [List.toChunks]
  | cons x xs =>
    cases n with
    | zero => simp [List.toChunks]
    | succ n => simp [List.toChunks, hgo]

theorem bytes_newReader (content : Str) (n : Nat) : (newReader content n).bytes = content := by
  simp [newReader, Reads.bytes, flatten_toChunks]

/-- A reader that may break off with an error after so many bytes. -/
def cutReader (content : Str) : Option (Nat × Str) → Reader
  | none => newReader content
  | some (count, message) => fun n => ⟨(content.take count).toChunks n, [], .other message⟩

/-- What is read is what is there up to the point where reading breaks off. -/
theorem cutReader_spec (content : Str) (cut : Option (Nat × Str)) (n : Nat) :
    ((cutReader content cut n).err = .eof → (cutReader content cut n).bytes = content) ∧
      (cutReader content cut n).bytes <+: content := by
  cases cut with
  | none =>
    have hbytes : (cutReader content none n).bytes = content := bytes_newReader content n
    rw [hbytes]
    exact ⟨fun _ => rfl, List.prefix_rfl⟩
  | some cut =>
    refine ⟨nofun, ?_⟩
    simp only [cutReader, Reads.bytes, flatten_toChunks, List.append_nil]
    exact List.take_prefix _ _

/-! ## The contract -/

structure Contents {σ : Type} (st : Storage σ) (κ : Type) where
  addr : Str → κ
  kept : σ → κ → Option Str
  Unkept : κ → Prop
  write_ok : ∀ path c s, ¬ Unkept (addr path) →
    (st.atomicWrite path (newReader c) s).1 = .ok () →
    kept (st.atomicWrite path (newReader c) s).2 (addr path) = some c
  write_keeps : ∀ path c s k, ¬ Unkept k →
    (k = addr path → (st.atomicWrite path (newReader c) s).1 ≠ .ok ()) →
    kept (st.atomicWrite path (newReader c) s).2 k = kept s k
  createFolder_keeps : ∀ path s k, ¬ Unkept k → kept (st.createFolder path s).2 k = kept s k
  list_keeps : ∀ listPrefix s, kept (st.list listPrefix s).2 = kept s
  open_keeps : ∀ path s, kept (st.open_ path s).2 = kept s
  open_eof : ∀ path s r n, (st.open_ path s).1 = .ok r → (r n).err = .eof →
    kept s (addr path) = some (r n).bytes
  open_front : ∀ path s r n, (st.open_ path s).1 = .ok r →
    (r n).bytes <+: (kept s (addr path)).getD []

/-- Folders are there once they were made, and they stay. -/
structure Folders {σ : Type} (st : Storage σ) where
  has : σ → Str → Prop
  createFolder_ok : ∀ path s, (st.createFolder path s).1 = .ok () →
    has (st.createFolder path s).2 path
  createFolder_keeps : ∀ path s folder, has s folder → has (st.createFolder path s).2 folder
  write_keeps : ∀ path c s folder, has s folder →
    has (st.atomicWrite path (newReader c) s).2 folder
  list_keeps : ∀ listPrefix s folder, has s folder → has (st.list listPrefix s).2 folder
  open_keeps : ∀ path s folder, has s folder → has (st.open_ path s).2 folder

/-- What can be in a storage, of which nothing goes away that is not `Loose`, and to which only
writes and folders add. -/
structure Growth {σ : Type} (st : Storage σ) (κ : Type) where
  has : σ → κ → Prop
  Loose : κ → Prop
  WriteBrings : Str → κ → Prop
  FolderBrings : Str → κ → Prop
  write_keeps : ∀ path c s k, ¬ Loose k → has s k → has (st.atomicWrite path (newReader c) s).2 k
  write_brings : ∀ path c s k, has (st.atomicWrite path (newReader c) s).2 k →
    has s k ∨ WriteBrings path k
  createFolder_keeps : ∀ path s k, has s k → has (st.createFolder path s).2 k
  createFolder_brings : ∀ path s k, has (st.createFolder path s).2 k →
    has s k ∨ FolderBrings path k
  list_same : ∀ listPrefix s, has (st.list listPrefix s).2 = has s
  open_same : ∀ path s, has (st.open_ path s).2 = has s

/-! ## Backends in an environment -/

/-- What the environment does to one operation. -/
structure Conditions (χ : Type) where
  choices : Nat → χ
  /-- Reading the opened object fails after so many bytes, with this error. -/
  cut : Option (Nat × Str)

structure Exposed (S χ : Type) where
  state : S
  coming : Nat → Conditions χ

def Exposed.next {S χ : Type} (e : Exposed S χ) (s : S) : Exposed S χ :=
  ⟨s, fun n => e.coming (n + 1)⟩

/-- The next operation is this program. -/
def Exposed.run {M : Machine} {ε α : Type} (message : ε → Str) (p : ExceptT ε (Prog M) α) :
    Op (Exposed M.State M.Choice) α := fun e =>
  let ran := Prog.run p.run (e.coming 0).choices e.state
  (ran.value.mapError message, e.next ran.state)

theorem mapError_ok {ε ε' α : Type} {f : ε → ε'} {r : Except ε α} {a : α} :
    r.mapError f = .ok a ↔ r = .ok a := by
  cases r <;> simp [Except.mapError]

/-- To show something of the next operation, show it of all its runs. -/
theorem Exposed.run_of_wp {M : Machine} {ε α : Type} {G : M.Effect → Prop}
    {Q : Except ε α → M.State → Prop} {p : ExceptT ε (Prog M) α} {e : Exposed M.State M.Choice}
    (h : Prog.Wp G Q p.run e.state) (message : ε → Str) :
    ∃ r, (run message p e).1 = r.mapError message ∧ Q r (run message p e).2.state :=
  ⟨_, rfl, (Prog.run_of_wp h _).2⟩

end FileEngine

namespace FileEngine.Local

open Go Os

/-- The local backend. The entries that a listing has lost meanwhile are those whose names end
the locations in `kept`. -/
def LocalStorage.exposed (s : LocalStorage) (message : Errno → Str) (dirSize : List Str → Int) :
    Storage (Exposed FS Choice) where
  createFolder path := Exposed.run (M := os) message (s.createFolder path)
  atomicWrite path r := Exposed.run (M := os) message (s.atomicWrite path r)
  move src dst := Exposed.run (M := os) message (s.move src dst)
  delete path := Exposed.run (M := os) message (s.delete path)
  exists_ path e :=
    ((s.exists_ ((e.coming 0).choices 0) path e.state).mapError message, e.next e.state)
  list listPrefix e :=
    let choice := (e.coming 0).choices 0
    let lost name := choice.kept.any fun l => l.getLast?.map Name.val = some name
    ((s.list dirSize choice lost listPrefix e.state).mapError message, e.next e.state)
  open_ path e :=
    let reader : Entry → Reader
      | .dir => fun _ => ⟨[], [], .other (message .isdir)⟩
      | .file content => cutReader content (e.coming 0).cut
    (((s.open_ ((e.coming 0).choices 0) path e.state).map reader).mapError message,
      e.next e.state)

end FileEngine.Local

namespace FileEngine.ObjectStore

open Go

/-- The body of an object, which is read later. -/
def openBody (p : CloudM Str) : Op (Exposed Bucket Choice) Reader := fun e =>
  let (opened, e') := Exposed.run (M := cloud) id p e
  (opened.map fun body => cutReader body (e.coming 0).cut, e')

def GCSStorage.exposed (g : GCSStorage) : Storage (Exposed Bucket Choice) where
  createFolder path := Exposed.run (M := cloud) id (g.createFolder path)
  atomicWrite path r := Exposed.run (M := cloud) id (g.atomicWrite path r)
  move src dst := Exposed.run (M := cloud) id (g.move src dst)
  delete path := Exposed.run (M := cloud) id (g.delete path)
  exists_ path := Exposed.run (M := cloud) id (g.exists_ path)
  list listPrefix := Exposed.run (M := cloud) id (g.list listPrefix)
  open_ path := openBody (g.open_ path)

/-- `decode` is how the provider reads the header `CopySource`. -/
def S3Storage.exposed (decode : Str → Str) (s : S3Storage) : Storage (Exposed Bucket Choice) where
  createFolder path := Exposed.run (M := cloud) id (s.createFolder path)
  atomicWrite path r := Exposed.run (M := cloud) id (s.atomicWrite decode path r)
  move src dst := Exposed.run (M := cloud) id (s.move decode src dst)
  delete path := Exposed.run (M := cloud) id (s.delete path)
  exists_ path := Exposed.run (M := cloud) id (s.exists_ path)
  list listPrefix := Exposed.run (M := cloud) id (s.list listPrefix)
  open_ path := openBody (s.open_ path)

end FileEngine.ObjectStore
