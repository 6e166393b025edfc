import FileEngine.Go.Program
import FileEngine.Storage.ObjectKeys
import Mathlib.Data.Finmap

/-!
# Buckets

A bucket of an object store is a finite map from keys to contents. The machine has the
requests that the two object backends send; both providers answer them from the bucket.
A request is about single keys and atomic: it is carried out and succeeds, or it fails
and changes nothing. The environment says which requests fail, draws the random bytes,
and cuts a listing into pages.

The providers differ in two points, which are arguments of the requests: whether an
object may be copied onto itself (S3 refuses that), and whether it is an error to delete
a key that is not there (for GCS it is).

The empty key is one like any other here. The clients of both providers refuse it before
they send anything, so a call that comes to it fails with them and may succeed here.

The `_cases` theorems say all that a request can do; nothing else unfolds the requests.
-/

namespace FileEngine.ObjectStore

open Go

abbrev Bucket := Finmap fun _ : Str => Str

inductive Effect
  | stored (key : Str)
  | copied (src dst : Str)
  | deleted (key : Str)
deriving DecidableEq

structure Choice where
  /-- The request fails with this error. -/
  fault : Option Str
  /-- The bytes that the random source has to offer. -/
  rand : Str
  /-- The lengths of the pages of a listing; the last page has what is left. -/
  cuts : List Nat

/-- No failure, one page, and the given random bytes. -/
def Choice.smooth (rand : Str) : Choice := ⟨none, rand, []⟩

instance : Inhabited Choice := ⟨.smooth []⟩

/-! ## Listings -/

/-- An entry of a listing: a common prefix up to the delimiter, or an object. -/
inductive Item
  | folder (commonPrefix : Str)
  | object (key : Str) (size : Nat)
deriving DecidableEq

structure Page where
  commonPrefixes : List Str
  contents : List (Str × Nat)

namespace Bucket

/-- How a key is shown in a listing. With a delimiter, all keys that go on beyond the next
`/` are shown as one. -/
def item (b : Bucket) (delimited : Bool) (keyPrefix key : Str) : Item :=
  let rest := key.drop keyPrefix.length
  if delimited ∧ slash ∈ rest then .folder (keyPrefix ++ rest.takeWhile (· ≠ slash) ++ [slash])
  else .object key ((b.lookup key).getD []).length

/-- The keys with the prefix in their order, each entry once. -/
def items (b : Bucket) (delimited : Bool) (keyPrefix : Str) : List Item :=
  (((sorted b.keys).filter (hasPrefix · keyPrefix)).map (b.item delimited keyPrefix)).dedup

end Bucket

def Item.commonPrefix : Item → Option Str
  | .folder cp => some cp
  | .object _ _ => none

def Item.content : Item → Option (Str × Nat)
  | .folder _ => none
  | .object key size => some (key, size)

def page (items : List Item) : Page :=
  ⟨items.filterMap Item.commonPrefix, items.filterMap Item.content⟩

/-- Cut a list into pieces of the given lengths and the rest. -/
def cut {α : Type} : List Nat → List α → List (List α)
  | [], xs => [xs]
  | n :: ns, xs => xs.take n :: cut ns (xs.drop n)

/-! ## Requests -/

namespace Bucket

abbrev Answer (α : Type) := Except Str α × Bucket × List Effect

/-- `n` bytes; where the source has none, the buffer keeps its zeros. -/
def randRead (choice : Choice) (n : Nat) : Str :=
  choice.rand.take n ++ List.replicate (n - choice.rand.length) 0

/-- Store an object under a key, in place of the one that was there. -/
def put (b : Bucket) (choice : Choice) (key body : Str) : Answer Unit :=
  match choice.fault with
  | some e => (.error e, b, [])
  | none => (.ok (), b.insert key body, [.stored key])

def copy (b : Bucket) (choice : Choice) (src dst : Str) (ontoItself : Bool) : Answer Unit :=
  match choice.fault with
  | some e => (.error e, b, [])
  | none =>
      match b.lookup src with
      | none => (.error (str "NoSuchKey"), b, [])
      | some body =>
          if src = dst ∧ ¬ ontoItself then (.error (str "InvalidRequest"), b, [])
          else (.ok (), b.insert dst body, [.copied src dst])

def delete (b : Bucket) (choice : Choice) (key : Str) (missingOk : Bool) : Answer Unit :=
  match choice.fault with
  | some e => (.error e, b, [])
  | none =>
      if b.lookup key = none ∧ ¬ missingOk then (.error (str "NoSuchKey"), b, [])
      else (.ok (), b.erase key, [.deleted key])

def get (b : Bucket) (choice : Choice) (key : Str) : Except Str Str :=
  match choice.fault with
  | some e => .error e
  | none =>
      match b.lookup key with
      | none => .error (str "NoSuchKey")
      | some body => .ok body

def pages (b : Bucket) (choice : Choice) (delimited : Bool) (keyPrefix : Str) :
    Except Str (List Page) :=
  match choice.fault with
  | some e => .error e
  | none => .ok ((cut choice.cuts (b.items delimited keyPrefix)).map page)

/-! ## What a request can do -/

theorem put_cases (b : Bucket) (choice : Choice) (key body : Str) :
    (∃ e, choice.fault = some e ∧ b.put choice key body = (.error e, b, [])) ∨
      (choice.fault = none ∧ b.put choice key body =
        (.ok (), b.insert key body, [.stored key])) := by
  unfold put
  cases choice.fault with
  | some e => exact Or.inl ⟨e, rfl, rfl⟩
  | none => exact Or.inr ⟨rfl, rfl⟩

theorem copy_cases (b : Bucket) (choice : Choice) (src dst : Str) (ontoItself : Bool) :
    (∃ e, b.copy choice src dst ontoItself = (.error e, b, [])) ∨
      ∃ body, b.lookup src = some body ∧ (src = dst → ontoItself = true) ∧
        b.copy choice src dst ontoItself = (.ok (), b.insert dst body, [.copied src dst]) := by
  unfold copy
  cases choice.fault with
  | some e => exact Or.inl ⟨e, rfl⟩
  | none =>
    cases hsrc : b.lookup src with
    | none => exact Or.inl ⟨_, rfl⟩
    | some body =>
      by_cases hself : src = dst ∧ ¬ ontoItself = true
      · exact Or.inl ⟨_, if_pos hself⟩
      · refine Or.inr ⟨body, rfl, fun hsame => ?_, if_neg hself⟩
        by_contra hno
        exact hself ⟨hsame, hno⟩

theorem delete_cases (b : Bucket) (choice : Choice) (key : Str) (missingOk : Bool) :
    (∃ e, b.delete choice key missingOk = (.error e, b, [])) ∨
      b.delete choice key missingOk = (.ok (), b.erase key, [.deleted key]) := by
  unfold delete
  cases choice.fault with
  | some e => exact Or.inl ⟨e, rfl⟩
  | none =>
    dsimp only
    split_ifs
    · exact Or.inl ⟨_, rfl⟩
    · exact Or.inr rfl

end Bucket

/-! ## The machine -/

inductive Call
  | randRead (n : Nat)
  | send (bytes : Str)
  | put (key body : Str)
  | copy (src dst : Str) (ontoItself : Bool)
  | delete (key : Str) (missingOk : Bool)
  | get (key : Str)
  | list (delimited : Bool) (keyPrefix : Str)

def Call.Reply : Call → Type
  | .randRead _ => Str
  | .get _ => Except Str Str
  | .list _ _ => Except Str (List Page)
  | _ => Except Str Unit

def exec : (c : Call) → Choice → Bucket → c.Reply × Bucket × List Effect
  | .randRead n, choice, b => (Bucket.randRead choice n, b, [])
  | .send _, choice, b => (match choice.fault with | some e => .error e | none => .ok (), b, [])
  | .put key body, choice, b => b.put choice key body
  | .copy src dst ontoItself, choice, b => b.copy choice src dst ontoItself
  | .delete key missingOk, choice, b => b.delete choice key missingOk
  | .get key, choice, b => (b.get choice key, b, [])
  | .list delimited keyPrefix, choice, b => (b.pages choice delimited keyPrefix, b, [])

theorem send_cases (b : Bucket) (choice : Choice) (bytes : Str) :
    (∃ e, choice.fault = some e ∧ exec (.send bytes) choice b = (.error e, b, [])) ∨
      (choice.fault = none ∧ exec (.send bytes) choice b = (.ok (), b, [])) := by
  cases hfault : choice.fault with
  | some e => exact Or.inl ⟨e, rfl, by simp only [exec, hfault]⟩
  | none => exact Or.inr ⟨rfl, by simp only [exec, hfault]⟩

abbrev cloud : Machine where
  State := Bucket
  Call := Call
  Reply := Call.Reply
  Choice := Choice
  Effect := Effect
  exec := exec

/-- A program that returns an error or a result. -/
abbrev CloudM := ExceptT Str (Prog cloud)

/-- `randHex`: an error of the random source is ignored. -/
def randHex (n : Nat) : CloudM Str :=
  Prog.step (Call.randRead n) fun bytes => Prog.ret (.ok (hexEncode bytes))

/-- Send a part of an object; the object is only there once it is complete. -/
def send (bytes : Str) : Prog cloud (Except Str Unit) := Prog.step (Call.send bytes) Prog.ret

def put (key body : Str) : CloudM Unit := Prog.step (Call.put key body) Prog.ret

def copy (src dst : Str) (ontoItself : Bool) : CloudM Unit :=
  Prog.step (Call.copy src dst ontoItself) Prog.ret

def delete (key : Str) (missingOk : Bool) : CloudM Unit :=
  Prog.step (Call.delete key missingOk) Prog.ret

def get (key : Str) : CloudM Str := Prog.step (Call.get key) Prog.ret

def list (delimited : Bool) (keyPrefix : Str) : CloudM (List Page) :=
  Prog.step (Call.list delimited keyPrefix) Prog.ret

/-! ## Without failures -/

/-- No request fails. -/
def Smooth (_ : Call) (choice : Choice) (_ : Bucket) : Prop := choice.fault = none

section

variable {b : Bucket} {Q : Except Str Unit → Bucket → Prop}

theorem under_put {key body : Str} (h : Q (.ok ()) (b.insert key body)) :
    Prog.Under Smooth Q (put key body).run b := by
  refine Prog.under_call fun choice hchoice r b' effects hexec => ?_
  rcases b.put_cases choice key body with ⟨e, hfault, heq⟩ | ⟨_, heq⟩
  · cases hchoice.symm.trans hfault
  · cases heq.symm.trans hexec
    exact h

theorem under_copy {src dst body : Str} {ontoItself : Bool} (hbody : b.lookup src = some body)
    (hself : src = dst → ontoItself = true) (h : Q (.ok ()) (b.insert dst body)) :
    Prog.Under Smooth Q (copy src dst ontoItself).run b := by
  refine Prog.under_call fun choice hchoice r b' effects hexec => ?_
  have heq : b.copy choice src dst ontoItself = (.ok (), b.insert dst body, [.copied src dst]) := by
    unfold Bucket.copy
    rw [show choice.fault = none from hchoice, hbody]
    exact if_neg fun hno => hno.2 (hself hno.1)
  cases heq.symm.trans hexec
  exact h

theorem under_delete {key : Str} {missingOk : Bool}
    (hthere : b.lookup key = none → missingOk = true) (h : Q (.ok ()) (b.erase key)) :
    Prog.Under Smooth Q (delete key missingOk).run b := by
  refine Prog.under_call fun choice hchoice r b' effects hexec => ?_
  have heq : b.delete choice key missingOk = (.ok (), b.erase key, [.deleted key]) := by
    unfold Bucket.delete
    rw [show choice.fault = none from hchoice]
    exact if_neg fun hno => hno.2 (hthere hno.1)
  cases heq.symm.trans hexec
  exact h

end

theorem obeys_smooth {choices : Nat → Choice} (h : ∀ n, (choices n).fault = none) {α : Type}
    (p : CloudM α) (b : Bucket) : Prog.Obeys (M := cloud) Smooth p.run choices b :=
  Prog.obeys_of_forall (M := cloud) (fun n _ _ => h n) _ b

end FileEngine.ObjectStore
