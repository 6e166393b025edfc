import FileEngine.Server.Streams

/-!
# The chunks of a download

`DownloadObject` sends every read that brought something, until a read comes with an error or
a send fails. `deliver` says what a sequence of sends delivers when some of them may fail: a
front of it, and all of it exactly if none fails. The loop of the handler delivers the reads
that are not empty (`sendReads_ends`), so the caller is told of success exactly if they have
the whole file (`download_streams_file`).
-/

namespace FileEngine.Server

open Go Auth Authz

/-! ## A sequence of sends -/

/-- What is delivered of some chunks, after `n` messages, and the error of the send that
failed. -/
def deliver (sendErr : Nat → Option Str) : (n : Nat) → List Str → List Str × Option Str
  | _, [] => ([], none)
  | n, c :: cs =>
      match sendErr n with
      | some e => ([], some e)
      | none => (c :: (deliver sendErr (n + 1) cs).1, (deliver sendErr (n + 1) cs).2)

section

variable (sendErr : Nat → Option Str)

theorem deliver_front (n : Nat) (cs : List Str) : (deliver sendErr n cs).1 <+: cs := by
  induction cs generalizing n with
  | nil => exact List.nil_prefix
  | cons c cs ih =>
    unfold deliver
    split
    · exact List.nil_prefix
    · exact List.cons_prefix_cons.mpr ⟨rfl, ih (n + 1)⟩

theorem deliver_all_iff (n : Nat) (cs : List Str) :
    (deliver sendErr n cs).2 = none ↔ ∀ i < cs.length, sendErr (n + i) = none := by
  induction cs generalizing n with
  | nil => simp [deliver]
  | cons c cs ih =>
    cases h : sendErr n with
    | some e =>
      refine iff_of_false (by simp [deliver, h]) fun hall => ?_
      have hfirst := hall 0 (by simp)
      rw [Nat.add_zero, h] at hfirst
      cases hfirst
    | none =>
      simp only [deliver, h]
      rw [ih]
      constructor
      · intro hall i hi
        cases i with
        | zero => exact h
        | succ i =>
          have hi' := hall i (by simpa using hi)
          rwa [show n + 1 + i = n + (i + 1) by omega] at hi'
      · intro hall i hi
        have hi' := hall (i + 1) (by simpa using hi)
        rwa [show n + (i + 1) = n + 1 + i by omega] at hi'

theorem deliver_eq (n : Nat) {cs : List Str} (h : (deliver sendErr n cs).2 = none) :
    (deliver sendErr n cs).1 = cs := by
  induction cs generalizing n with
  | nil => rfl
  | cons c cs ih =>
    unfold deliver at h ⊢
    split at h
    · cases h
    · rw [ih (n + 1) h]

theorem deliver_append (n : Nat) (cs ds : List Str) :
    deliver sendErr n (cs ++ ds) =
      match (deliver sendErr n cs).2 with
      | some e => ((deliver sendErr n cs).1, some e)
      | none => (cs ++ (deliver sendErr (n + cs.length) ds).1,
          (deliver sendErr (n + cs.length) ds).2) := by
  induction cs generalizing n with
  | nil => simp [deliver]
  | cons c cs ih =>
    cases h : sendErr n with
    | some e => simp [deliver, h]
    | none =>
      simp only [List.cons_append, deliver, h, ih, List.length_cons]
      rw [show n + 1 + cs.length = n + (cs.length + 1) by omega]
      split <;> rfl

end

/-! ## The loop of the handler -/

section

variable {σ μ : Type}

/-- The reads that bring something. -/
def nonEmpty (chunks : List Str) : List Str := chunks.filter (· ≠ [])

theorem flatten_nonEmpty (chunks : List Str) : (nonEmpty chunks).flatten = chunks.flatten := by
  induction chunks with
  | nil => rfl
  | cons c cs ih =>
    unfold nonEmpty at ih ⊢
    by_cases hc : c = []
    · simpa [hc] using ih
    · simpa [hc] using ih

/-- How some sends end: the messages that are added, and the error. -/
def sendEnd (d : List Str × Option Str) (s : StreamState (World σ) μ) :
    Except RpcError Unit × StreamState (World σ) μ :=
  (match d.2 with
    | some e => .error (.err e)
    | none => .ok (), { s with sent := s.sent ++ d.1 })

theorem sendRead_ends (env : Env) (data : Str) (s : StreamState (World σ) μ) :
    let d := deliver env.sendErr s.sent.length (nonEmpty [data])
    Ends (sendRead env data) s (sendEnd d s).1 (sendEnd d s).2 := by
  intro d
  by_cases hdata : data = []
  · have hd : d = ([], none) := by simp [d, nonEmpty, hdata, deliver]
    rw [hd]
    simp only [sendRead, hdata, sendEnd, List.append_nil]
    exact ends_pure () s
  · have hne : nonEmpty [data] = [data] := by simp [nonEmpty, hdata]
    unfold sendRead
    rw [if_pos hdata]
    unfold send
    refine ends_bind_ok (ends_get s) ?_
    cases herr : env.sendErr s.sent.length with
    | some e =>
      have hd : d = ([], some e) := by simp [d, hne, deliver, herr]
      rw [hd]
      simpa [sendEnd] using ends_throw (RpcError.err e) s
    | none =>
      have hd : d = ([data], none) := by simp [d, hne, deliver, herr]
      rw [hd]
      exact ends_set s _

/-- One loop after the other. -/
theorem sendEnd_append {env : Env} {m : RPC (StreamState (World σ) μ) PUnit}
    {f : PUnit → RPC (StreamState (World σ) μ) Unit} {s : StreamState (World σ) μ}
    {cs ds : List Str}
    (hm : Ends m s (sendEnd (deliver env.sendErr s.sent.length cs) s).1
      (sendEnd (deliver env.sendErr s.sent.length cs) s).2)
    (hf : ∀ s', Ends (f ⟨⟩) s' (sendEnd (deliver env.sendErr s'.sent.length ds) s').1
      (sendEnd (deliver env.sendErr s'.sent.length ds) s').2) :
    Ends (m >>= f) s (sendEnd (deliver env.sendErr s.sent.length (cs ++ ds)) s).1
      (sendEnd (deliver env.sendErr s.sent.length (cs ++ ds)) s).2 := by
  rw [deliver_append]
  cases h : (deliver env.sendErr s.sent.length cs).2 with
  | some e =>
    simp only [sendEnd, h] at hm ⊢
    exact ends_bind_error hm f
  | none =>
    simp only [sendEnd, h, deliver_eq _ _ h] at hm
    refine ends_bind_ok hm ?_
    have hrest := hf { s with sent := s.sent ++ cs }
    rw [List.length_append] at hrest
    simpa [sendEnd, List.append_assoc] using hrest

theorem sendChunks_ends (env : Env) (chunks : List Str) (s : StreamState (World σ) μ) :
    let d := deliver env.sendErr s.sent.length (nonEmpty chunks)
    Ends (forIn chunks PUnit.unit fun data _ => do
        sendRead env data
        pure (ForInStep.yield PUnit.unit) : RPC (StreamState (World σ) μ) PUnit) s
      (sendEnd d s).1 (sendEnd d s).2 := by
  induction chunks generalizing s with
  | nil =>
    intro d
    simpa [sendEnd, d, nonEmpty, deliver] using ends_pure PUnit.unit s
  | cons c cs ih =>
    intro d
    have hd : d = deliver env.sendErr s.sent.length (nonEmpty [c] ++ nonEmpty cs) := by
      simp only [d, nonEmpty, ← List.filter_append, List.singleton_append]
    rw [hd, List.forIn_cons, bind_assoc]
    simp only [pure_bind]
    exact sendEnd_append (sendRead_ends env c s) ih

/-- The loop delivers the reads that bring something, and returns the error of a send that
failed, or else that of the last read. -/
theorem sendReads_ends (env : Env) (reads : Reads) (s : StreamState (World σ) μ) :
    let d := deliver env.sendErr s.sent.length (nonEmpty (reads.chunks ++ [reads.last]))
    Ends (sendReads env reads) s
      (match d.2, reads.err with
        | some e, _ => .error (.err e)
        | none, .other e => .error (.err e)
        | none, .eof => .ok ()) { s with sent := s.sent ++ d.1 } := by
  intro d
  have hd : d = deliver env.sendErr s.sent.length
      (nonEmpty reads.chunks ++ nonEmpty [reads.last]) := by
    simp only [d, nonEmpty, ← List.filter_append]
  have hsends := sendEnd_append (f := fun _ => sendRead env reads.last)
    (sendChunks_ends env reads.chunks s) (sendRead_ends env reads.last)
  rw [← hd] at hsends
  unfold sendReads
  rw [← bind_assoc]
  cases h : d.2 with
  | some e =>
    simp only [sendEnd, h] at hsends
    exact ends_bind_error hsends _
  | none =>
    simp only [sendEnd, h] at hsends
    refine ends_bind_ok hsends ?_
    cases reads.err with
    | eof => exact ends_pure _ _
    | other e => exact ends_throw _ _

theorem open_ends {srv : Config σ} {path : Str} {s : StreamState (World σ) μ} {r : Reader}
    {storage : σ} (hopen : srv.backend.open_ path s.world.storage = (.ok r, storage)) :
    Ends (inWorld (onStorage (srv.backend.open_ path))) s (.ok r)
      { s with world := { s.world with storage := storage } } := by
  have hstorage : Ends (onStorage (srv.backend.open_ path)) s.world (.ok r)
      { s.world with storage := storage } := by
    refine ends_bind_ok (ends_get _) ?_
    rw [hopen]
    exact ends_bind_ok (ends_set _ _) (ends_pure _ _)
  exact ends_bind_ok (ends_get s) (ends_bind_ok (ends_lift hstorage s)
    (ends_bind_ok (ends_set _ _) (ends_pure _ _)))

/-- **A download streams exactly the file.** Once the caller is allowed and the object is open,
whatever its reads are and whichever sends fail: the handler ends, the chunks that it has sent
are not empty, and together they are a front of the bytes that were read. It returns `nil`
exactly if the reads ended with the end of the file and no send failed, and then the chunks
are all the bytes. -/
theorem download_streams_file (srv : Config σ) (env : Env) (store : ACLStore) (ctx : Ctx)
    (a : AuthContext) (path : Str) (s : StreamState (World σ) μ) (r : Reader) (storage : σ)
    (hctx : fromContext ctx = some a) (hgrant : Granted store a permRead (.downloadObject path))
    (hopen : srv.backend.open_ path s.world.storage = (.ok r, storage)) (hsent : s.sent = []) :
    let reads := r (64 * 1024)
    let sends := nonEmpty (reads.chunks ++ [reads.last])
    ∃ result s', Ends (downloadObject srv env store ctx path) s result s' ∧
      (∀ c ∈ s'.sent, c ≠ []) ∧ s'.sent.flatten <+: reads.bytes ∧
      (result = .ok () ↔ reads.err = .eof ∧ ∀ i < sends.length, env.sendErr i = none) ∧
      (result = .ok () → s'.sent.flatten = reads.bytes) := by
  intro reads sends
  let opened : StreamState (World σ) μ := { s with world := { s.world with storage := storage } }
  have hloop := sendReads_ends env reads opened
  have hzero : opened.sent = [] := hsent
  rw [hzero] at hloop
  have hend : Ends (downloadObject srv env store ctx path) s
      (match (deliver env.sendErr 0 sends).2, reads.err with
        | some e, _ => .error (.err e)
        | none, .other e => .error (.err e)
        | none, .eof => .ok ()) { opened with sent := (deliver env.sendErr 0 sends).1 } := by
    unfold downloadObject
    simp only [hctx]
    refine ends_bind_ok (checkAccess_granted hgrant s) (ends_bind_ok (open_ends hopen) ?_)
    exact hloop
  have hflat : sends.flatten = reads.bytes := by
    simp [sends, flatten_nonEmpty, Reads.bytes]
  obtain ⟨rest, hrest⟩ := deliver_front env.sendErr 0 sends
  have hall := deliver_all_iff env.sendErr 0 sends
  simp only [Nat.zero_add] at hall
  refine ⟨_, _, hend, fun c hc => ?_, ?_, ?_, fun hok => ?_⟩
  · have hmem : c ∈ sends := hrest ▸ List.mem_append_left rest hc
    simpa using (List.mem_filter.mp hmem).2
  · exact ⟨rest.flatten, by rw [← List.flatten_append, hrest, hflat]⟩
  · rw [← hall]
    cases (deliver env.sendErr 0 sends).2 <;> cases reads.err <;> simp
  · have hnone : (deliver env.sendErr 0 sends).2 = none := by
      cases h : (deliver env.sendErr 0 sends).2 with
      | none => rfl
      | some e =>
        rw [h] at hok
        cases hok
    rw [← hflat]
    exact congrArg List.flatten (deliver_eq _ 0 hnone)

end

/-- An object that is read in two pieces, an empty read between them and the end of the file
together with the last one. -/
def twoPieces : Config Str :=
  { demo with backend :=
    { oneFile with open_ := fun _ s => (.ok fun _ => ⟨[s, []], str "z", .eof⟩, s) } }

/-- An administrator downloads the object; all sends go through. -/
theorem download_streams_two_pieces :
    ∃ result s', Ends (downloadObject twoPieces demoEnv noACLs
        ⟨none, some ⟨str "7", [str "admin"]⟩⟩ (str "/f"))
        (⟨⟨noACLs, str "xy", ⟨[], fun _ => none⟩⟩, [], true, []⟩ : StreamState (World Str) Str)
        result s' ∧ result = .ok () ∧ s'.sent.flatten = str "xyz" := by
  have hgrant : Granted noACLs ⟨str "7", [str "admin"]⟩ permRead (.downloadObject (str "/f")) := by
    refine ⟨str "/f", ?_, by decide⟩
    simp only [extractPath, normalize_eq]
    decide
  obtain ⟨result, s', hend, _, _, hok, hall⟩ := download_streams_file twoPieces demoEnv noACLs
    ⟨none, some ⟨str "7", [str "admin"]⟩⟩ ⟨str "7", [str "admin"]⟩ (str "/f")
    (⟨⟨noACLs, str "xy", ⟨[], fun _ => none⟩⟩, [], true, []⟩ : StreamState (World Str) Str)
    (fun _ => ⟨[str "xy", []], str "z", .eof⟩) (str "xy") rfl hgrant rfl rfl
  have hnil : result = .ok () := hok.mpr ⟨rfl, fun _ _ => rfl⟩
  exact ⟨result, s', hend, hnil, hall hnil⟩

end FileEngine.Server
