import FileEngine.Auth.InMemory
import FileEngine.Go.Padding
import FileEngine.Server.Mediation
import FileEngine.Tasks.Folders

/-!
# From a `CreateFolder` request to the folder

A request is checked on the path that `ExtractPath` builds from its two fields, and
carried out by a worker on a path that the processor builds from the same fields again.
The first is trimmed and the second is not, and the processor refuses an empty parent,
which nothing before it does. `createFolder_carriedOut_iff` says for which requests the
worker makes the folder that was checked.
-/

namespace FileEngine.Server

open Go Auth Authz Queue Os Local Tasks

/-! ## What is queued -/

section

variable {σ : Type}

theorem unary_admitted {srv : Config σ} {store : ACLStore} {fullMethod : Str} {perm : Permission}
    {md : Option MD} {req : Request} {path : Str} {a : AuthContext}
    (hperm : methodPermission.lookup fullMethod = some perm) (hpath : extractPath req = .ok path)
    (hid : identity srv.lib srv.verifier (authHeader md) = some a)
    (hcan : canAccess a path perm store = some true) {body : RPC (World σ) Response}
    {w w' : World σ} {r : Except RpcError Response} (hbody : Ends body w r w') :
    Ends (unary srv store fullMethod md req body) w r w' := by
  simp only [unary, grpcAuthInterceptor, authenticate_ok hid, grpcAuthZInterceptor, hperm,
    fromContext, withAuthContext]
  exact ends_bind_ok (checkAccess_ends hpath hcan w) hbody

theorem onQueue_ends {α : Type} (op : Op Redis α) (w : World σ) :
    Ends (onQueue op) w ((op w.queue).1.mapError .err) { w with queue := (op w.queue).2 } := by
  refine ends_bind_ok (ends_get w) ?_
  rcases op w.queue with ⟨result, queue⟩
  cases result with
  | error e => exact ends_bind_ok (ends_set _ _) (ends_throw _ _)
  | ok a => exact ends_bind_ok (ends_set _ _) (ends_pure _ _)

/-- The handler succeeds only if the queue has accepted the payload. -/
theorem createFolder_ends (srv : Config σ) (env : Env) (parent name by_ : Str) (w : World σ) :
    let queued := enqueueCreateFolder srv.codec env.now env.rpush parent name by_ w.queue
    ∃ r, Ends (createFolder srv env parent name by_) w r { w with queue := queued.2 } ∧
      ∀ response, r = .ok response → ∃ id, queued.1 = .ok id := by
  intro queued
  have hqueue := onQueue_ends
    (enqueueCreateFolder srv.codec env.now env.rpush parent name by_) w
  cases hres : queued.1 with
  | error e =>
    rw [show (enqueueCreateFolder _ _ _ _ _ _ w.queue).1 = .error e from hres] at hqueue
    refine ⟨_, ends_bind_error hqueue _, fun response hr => ?_⟩
    cases hr
  | ok id =>
    rw [show (enqueueCreateFolder _ _ _ _ _ _ w.queue).1 = .ok id from hres] at hqueue
    exact ⟨_, ends_bind_ok hqueue (ends_pure _ _), fun _ _ => ⟨id, rfl⟩⟩

/-- A call that is answered without an error has appended its encoded payload to the list. -/
theorem createFolder_queued {srv : Config σ} {env : Env} {md : Option MD} {parent name by_ : Str}
    {w w' : World σ} {response : Response}
    (h : step srv env (.createFolder md parent name by_) w = some (.unary (.ok response), w')) :
    ∃ raw, srv.codec.marshal (createFolderPayload srv.codec env.now parent name by_) = .ok raw ∧
      w'.queue.tasks = w.queue.tasks ++ [raw] := by
  obtain ⟨⟨r, w₁⟩, hend, heq⟩ := Option.map_eq_some_iff.mp h
  obtain ⟨rfl, rfl⟩ : r = .ok response ∧ w₁ = w' := by
    simpa using heq
  have hpath : extractPath (.createFolder parent name by_) =
    .ok (normalize (folderPath parent name)) := rfl
  cases hid : identity srv.lib srv.verifier (authHeader md) with
  | none =>
    obtain ⟨e, he⟩ := unary_denied lookup_createFolder hpath
      (fun a ha => by rw [hid] at ha; cases ha)
      (createFolder srv env parent name by_)
    cases ((he w).unique hend).1
  | some a =>
    have hcan := canAccess_rooted (isAbs_normalize (folderPath parent name)) a permWrite w.acl
    generalize decideOn a (chain (normalize (folderPath parent name))) permWrite w.acl = b at hcan
    cases b with
    | false =>
      obtain ⟨e, he⟩ := unary_denied lookup_createFolder hpath
        (fun a' ha' => by rw [hid] at ha'; cases ha'; exact hcan)
        (createFolder srv env parent name by_)
      cases ((he w).unique hend).1
    | true =>
      obtain ⟨r, hbody, hok⟩ := createFolder_ends srv env parent name by_ w
      obtain ⟨hr, hw⟩ := (unary_admitted lookup_createFolder hpath hid hcan hbody).unique hend
      obtain ⟨id, hid⟩ := hok response hr
      rw [← hw]
      exact enqueueCreateFolder_queued hid

end

/-! ## What the worker does -/

section

variable {ι : Type} [DecidableEq ι]

/-- A worker that finds `raw` at the head of the list, and no file in the way of the location,
succeeds with the task and makes the directory there and those on the way to it. -/
def CarriedOut (sys : System FS) (i : ι) (raw : Str) (l : Loc) : Prop :=
  ∀ (w : Tasks.World ι FS) (rest : List Str), w.redis.tasks = raw :: rest →
    w.worker i = .ready → ¬ Obstructed w.store l →
    ∃ w' log, exec sys (round i) w = some (w', log) ∧
      .processed i w.ticket (sys.unmarshal raw) (.ok ()) ∈ log ∧ Makes l w.store w'.store

/-- The task is carried out exactly if the processor accepts its parameters and they lead to
the location. -/
theorem carriedOut_iff {sys : System FS} {s : LocalStorage} {host : Host}
    (hstorage : sys.storage = s.on host) (i : ι) {raw : Str}
    (htype : (sys.unmarshal raw).type = str "create_folder") (l : Loc) :
    CarriedOut sys i raw l ↔
      param (sys.unmarshal raw) (str "parent") ≠ [] ∧ param (sys.unmarshal raw) (str "name") ≠ [] ∧
        locate (s.full (folderOf (sys.unmarshal raw))) = l := by
  constructor
  · intro hall
    -- in the empty tree nothing is in the way, and what is there afterwards is new
    obtain ⟨w', log, hexec, hok, hmakes⟩ := hall
      ⟨⟨[raw], fun _ => none⟩, .empty, fun _ => .ready, 0⟩ [] rfl rfl (not_obstructed_empty l)
    have hround := exec_round sys (i := i)
      (w := ⟨⟨[raw], fun _ => none⟩, .empty, fun _ => .ready, 0⟩) rfl rfl
    rw [hexec] at hround
    cases hround
    rw [hstorage] at hmakes
    rcases process_folder s host htype .empty with ⟨hfeasible, _, hmakes'⟩ | ⟨_, ⟨e, herr⟩, _⟩
    · exact ⟨hfeasible.1, hfeasible.2.1, hmakes'.unique hmakes⟩
    · simp [hstorage, herr] at hok
  · rintro ⟨hparent, hname, rfl⟩ w rest htasks hready hfree
    have hround := exec_round sys htasks hready
    rw [hstorage] at hround
    rcases process_folder s host htype w.store with ⟨_, hok, hmakes⟩ | ⟨hnot, _⟩
    · refine ⟨_, _, hround, ?_, hmakes⟩
      simp [hok]
    · exact absurd ⟨hparent, hname, hfree⟩ hnot

theorem suffix_folderPath {w : Str} (hw : slash ∉ w) (parent name : Str) :
    w <:+ folderPath parent name ↔ w <:+ name := by
  have hname : slash :: name <:+ folderPath parent name :=
    ⟨trimSuffix parent [slash], by simp [folderPath]⟩
  refine ⟨fun h => ?_, fun h => h.trans ((List.suffix_cons slash name).trans hname)⟩
  rcases List.suffix_or_suffix_of_suffix h hname with h | h
  · rcases List.suffix_cons_iff.mp h with rfl | h
    · simp at hw
    · exact h
  · exact absurd (h.subset List.mem_cons_self) hw

theorem prefix_folderPath {w : Str} (hw : slash ∉ w) (parent name : Str) :
    w <+: folderPath parent name ↔ w <+: parent := by
  -- a separator ends the part of the parent, and no part of `w` is a separator
  have hcut : ∀ a b : Str, w <+: a ++ slash :: b ↔ w <+: a := by
    intro a b
    have hab : a ++ [slash] <+: a ++ slash :: b := ⟨b, by simp⟩
    refine ⟨fun h => ?_, fun h => h.trans (List.prefix_append _ _)⟩
    rcases List.prefix_or_prefix_of_prefix h hab with h | h
    · rcases List.prefix_concat_iff.mp h with rfl | h
      · simp at hw
      · exact h
    · exact absurd (h.subset (by simp)) hw
  have hparent : parent = trimSuffix parent [slash] ∨
      parent = trimSuffix parent [slash] ++ [slash] := by
    by_cases hslash : hasSuffix parent [slash] = true
    · obtain ⟨a, rfl⟩ := hasSuffix_iff.mp hslash
      rw [trimSuffix_append]
      exact Or.inr rfl
    · exact Or.inl (by simp [trimSuffix, hslash])
  have hfolder : folderPath parent name = trimSuffix parent [slash] ++ slash :: name := by
    simp [folderPath]
  rw [hfolder, hcut]
  rcases hparent with heq | heq
  · rw [← heq]
  · rw [heq, trimSuffix_append]
    exact (hcut _ []).symm

/-- What the check makes of a path denotes what the trimmed path denotes. -/
theorem locate_normalize (p : Str) : locate (normalize p) = locate (trimSpace p) := by
  obtain ⟨s, hs, hloc, _⟩ := exists_rooted (trimSpace p)
  rw [normalize_eq, hs, locate, comps_squeeze (comps_slash s), resolve_cons_nil,
    resolve_squeezeComps, hloc]

/-- **Folders as they were authorised.** Let a `CreateFolder` call with a name be answered
without an error. The worker that takes its task from the list makes the folder that was
checked exactly if the parent is not empty, the name does not end with white space, and
the parent does not begin with white space, or the path comes back to the root. -/
theorem createFolder_carriedOut_iff {σ : Type} {sys : System FS} {s : LocalStorage} {host : Host}
    (hstorage : sys.storage = s.on host) (i : ι) {srv : Config σ} (hcodec : srv.codec = sys.codec)
    {env : Env} {md : Option MD} {parent name by_ : Str} (hname : name ≠ [])
    (hjson : RoundTrips sys (createFolderPayload sys.codec env.now parent name by_))
    {w w' : World σ} {response : Response}
    (hreply : step srv env (.createFolder md parent name by_) w =
      some (.unary (.ok response), w')) :
    ∃ raw path, w'.queue.tasks = w.queue.tasks ++ [raw] ∧
      extractPath (.createFolder parent name by_) = .ok path ∧
      (CarriedOut sys i raw (locate (s.full path)) ↔
        parent ≠ [] ∧ (∀ space ∈ spaceRunes, ¬ space <:+ name) ∧
          ((∀ space ∈ spaceRunes, ¬ space <+: parent) ∨
            ComesBack (comps (folderPath parent name)))) := by
  obtain ⟨raw, hraw, hqueue⟩ := createFolder_queued hreply
  rw [hcodec] at hraw
  have htask := hjson raw hraw
  have hfolder : folderOf (createFolderPayload sys.codec env.now parent name by_) =
    folderPath parent name := rfl
  refine ⟨raw, normalize (folderPath parent name), hqueue, rfl, ?_⟩
  rw [carriedOut_iff hstorage i (by rw [htask]; rfl), htask, hfolder, locate_full, locate_full,
    List.append_cancel_left_eq, locate_normalize, eq_comm (a := locate (folderPath parent name)),
    locate_trimSpace_iff (by simp [folderPath])]
  have hend : (∀ space ∈ spaceRunes, ¬ space <:+ folderPath parent name) ↔
      ∀ space ∈ spaceRunes, ¬ space <:+ name :=
    forall₂_congr fun space h =>
      not_congr (suffix_folderPath (slash_not_mem_spaceRunes space h) parent name)
  have hfront : (∀ space ∈ spaceRunes, ¬ space <+: folderPath parent name) ↔
      ∀ space ∈ spaceRunes, ¬ space <+: parent :=
    forall₂_congr fun space h =>
      not_congr (prefix_folderPath (slash_not_mem_spaceRunes space h) parent name)
  rw [hend, hfront]
  show parent ≠ [] ∧ name ≠ [] ∧ _ ↔ _
  exact and_congr_right fun _ => and_iff_right hname

end

/-! ## A small deployment with folders -/

/-- Local storage beneath `/srv`. -/
def folderSystem : System FS :=
  jsonSystem id (LocalStorage.on ⟨str "/srv"⟩ ⟨fun _ => [], [], fun _ => 0⟩)

/-- Nothing is queued, and the user `7` may do everything. -/
def folderWorld : World Str :=
  ⟨(onlyAt (str "/") (str "7")).asACLStore, [], ⟨[], fun _ => none⟩⟩

def bearerMD : MD := fun key => if key = str "authorization" then [str "Bearer 7"] else []

def folderCall (parent name : Str) : Call := .createFolder (some bearerMD) parent name (str "7")

/-- What is queued for the call. -/
def folderRaw (parent name : Str) : Str :=
  marshalPayload createFolderKeys (createFolderPayload jsonCodec 0 parent name (str "7"))

theorem folderCall_queued (parent name : Str) :
    ∃ response, step demo demoEnv (folderCall parent name) folderWorld =
      some (.unary (.ok response),
        ⟨folderWorld.acl, [], ⟨[folderRaw parent name], fun _ => none⟩⟩) := by
  have hcan : canAccess ⟨str "7", []⟩ (normalize (folderPath parent name)) permWrite
      folderWorld.acl = some true := by
    rw [folderWorld, canAccess_onlyAt (isAbs_normalize _), Option.some.injEq, decide_eq_true_eq]
    exact (mem_chain_normalize _ []).mpr List.nil_prefix
  have hbody : Ends (createFolder demo demoEnv parent name (str "7")) folderWorld
      (.ok (.createFolder (formatTime 0) (str "queued") (str "Folder creation scheduled")))
      ⟨folderWorld.acl, [], ⟨[folderRaw parent name], fun _ => none⟩⟩ := rfl
  have hend : Ends (unary demo folderWorld.acl methodCreateFolder (some bearerMD)
      (.createFolder parent name (str "7"))
      (createFolder demo demoEnv parent name (str "7"))) folderWorld _ _ :=
    unary_admitted lookup_createFolder rfl rfl hcan hbody
  refine ⟨.createFolder (formatTime 0) (str "queued") (str "Folder creation scheduled"), ?_⟩
  show runUnary _ folderWorld = _
  rw [runUnary, hend]
  rfl

/-- A folder in the root may be created with an empty parent, as far as the server is
concerned, but the worker refuses the task. -/
theorem createFolder_not_carriedOut :
    ∃ response w' raw, step demo demoEnv (folderCall [] (str "b")) folderWorld =
        some (.unary (.ok response), w') ∧
      w'.queue.tasks = [raw] ∧
      extractPath (.createFolder [] (str "b") (str "7")) = .ok (str "/b") ∧
      process folderSystem.storage (folderSystem.unmarshal raw) .empty =
        (.error (str "missing params"), .empty) := by
  obtain ⟨response, hstep⟩ := folderCall_queued [] (str "b")
  refine ⟨response, _, _, hstep, rfl, ?_, ?_⟩
  · show Except.ok (normalize (str "/b")) = _
    rw [normalize_eq]
    rfl
  · rw [show folderSystem.unmarshal (folderRaw [] (str "b")) = _ from roundTrips_json id
      folderSystem.storage 0 (by decide) (by decide) (by decide) _ rfl]
    rfl

theorem createFolder_carriedOut_plain :
    ∃ raw path, folderRaw (str "/a") (str "b") = raw ∧
      extractPath (.createFolder (str "/a") (str "b") (str "7")) = .ok path ∧
      CarriedOut folderSystem () raw (locate (LocalStorage.full ⟨str "/srv"⟩ path)) := by
  obtain ⟨response, hstep⟩ := folderCall_queued (str "/a") (str "b")
  have hstorage : folderSystem.storage = LocalStorage.on ⟨str "/srv"⟩
    ⟨fun _ => [], [], fun _ => 0⟩ := rfl
  have hcodec : demo.codec = folderSystem.codec := rfl
  have hname : str "b" ≠ [] := by decide
  have hjson : RoundTrips folderSystem
      (createFolderPayload folderSystem.codec demoEnv.now (str "/a") (str "b") (str "7")) :=
    roundTrips_json id folderSystem.storage 0 (by decide) (by decide) (by decide)
  obtain ⟨raw, path, hqueue, hpath, hiff⟩ := createFolder_carriedOut_iff hstorage () hcodec hname
    hjson hstep
  refine ⟨raw, path, (List.cons.inj hqueue).1, hpath, hiff.mpr ⟨by decide, by decide, Or.inl ?_⟩⟩
  decide

end FileEngine.Server
