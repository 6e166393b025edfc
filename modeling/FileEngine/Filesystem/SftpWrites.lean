import FileEngine.Filesystem.SftpMoves

/-!
# Writes on a remote server

`SftpFs.AtomicWriteFile` fills a file beside its target and renames it. The file is named by
the target and the clock, it is not removed when something fails, and the reply of the rename
may be lost: then the client sees an error, and the target has been replaced.

`sftpWrite_attempts` says what one call can do. A client that makes one call after another
sees a list of results; `sftp_acknowledged_kept` reads from it what a location can hold.
-/

namespace FileEngine.Filesystem

open Go Os Local

/-! ## The temporary file is another one -/

theorem slash_not_mem_formatInt (x : Int) : slash ∉ formatInt x := by
  have hdigit : ∀ n : Nat, UInt8.ofNat (48 + n % 10) ≠ slash := by
    intro n h
    have hval := congrArg UInt8.toNat h
    rw [UInt8.toNat_ofNat', Nat.mod_eq_of_lt (by omega), show slash.toNat = 47 from rfl] at hval
    omega
  have hdecimal : ∀ fuel n, slash ∉ decimal fuel n := by
    intro fuel
    induction fuel with
    | zero => exact fun n => List.not_mem_nil
    | succ fuel ih =>
      intro n
      unfold decimal
      split
      · exact List.not_mem_nil
      · rw [List.mem_append, not_or, List.mem_singleton]
        exact ⟨ih _, (hdigit n).symm⟩
  have hpadded : slash ∉ appendInt x.natAbs 1 := by
    rw [appendInt, List.mem_append, not_or]
    exact ⟨fun h => absurd (List.eq_of_mem_replicate h) (by decide), hdecimal _ _⟩
  unfold formatInt
  split
  · rw [List.mem_cons, not_or]
    exact ⟨by decide, hpadded⟩
  · exact hpadded

/-- The name of the temporary file, by the name of the target and the clock. -/
theorem isName_temp {base : Str} (h : slash ∉ base) (nano : Int) :
    IsName (base ++ str ".tmp-" ++ formatInt nano) := by
  have hlen : 5 ≤ (base ++ str ".tmp-" ++ formatInt nano).length := by
    have htmp : (str ".tmp-").length = 5 := rfl
    simp only [List.length_append]
    omega
  refine ⟨?_, ?_, ?_, ?_⟩
  · rintro heq
    simp [heq] at hlen
  · rintro heq
    simp [heq, dot] at hlen
  · rintro heq
    simp [heq, dotdot] at hlen
  · simp only [List.mem_append, not_or]
    exact ⟨⟨h, by decide⟩, slash_not_mem_formatInt nano⟩

theorem locate_tempPath_ne (k : Loc) (nano : Int) : locate (SftpFs.tempPath k.path nano) ≠ k := by
  rcases List.eq_nil_or_concat' k with rfl | ⟨d, n, rfl⟩
  · let m : Name := ⟨[] ++ str ".tmp-" ++ formatInt nano, isName_temp List.not_mem_nil nano⟩
    have hloc : locate (SftpFs.tempPath (Loc.path []) nano) = [m] := by
      rw [← locate_val, ← locate_slash]
      rfl
    rw [hloc]
    exact List.cons_ne_nil _ _
  · let m : Name := ⟨n.val ++ str ".tmp-" ++ formatInt nano, isName_temp n.isName.2.2.2 nano⟩
    have hloc : locate (SftpFs.tempPath (Loc.path (d ++ [n])) nano) = d ++ [m] := by
      rw [← locate_path (d ++ [m]), path_concat, path_concat]
      simp [SftpFs.tempPath, m]
    rw [hloc]
    intro heq
    have hname := congrArg Name.val (List.singleton_inj.mp (List.append_cancel_left heq))
    have hlen := congrArg List.length hname
    have htmp : (str ".tmp-").length = 5 := rfl
    simp only [m, List.length_append] at hlen
    omega

/-! ## Rules for the calls -/

section

variable {t : FS} {failed : FS → Prop}

theorem remotely_mkdirAll {path : Str} {done : Unit → FS → Prop}
    (hdone : ∀ t', AddsDirs (locate path) t t' → done () t')
    (hfailed : ∀ t', AddsDirs (locate path) t t' → failed t') :
    Remotely (Post done failed) (mkdirAll path) t := by
  refine remotely_one fun choice r t' effects hexec => ?_
  have hadds := addsDirs_mkdirAll t choice path
  rw [show t.mkdirAll choice path = (r, t', effects) from hexec] at hadds
  refine ⟨?_, fun _ => hfailed t' hadds⟩
  cases r with
  | ok _ => exact hdone t' hadds
  | error e => exact hfailed t' hadds

/-- A call whose error is ignored and that changes nothing. -/
theorem remotely_ignored {h : Handle} {body : FsM Unit} {Q : Except Error Unit → FS → Prop}
    (hbody : Remotely Q body t) :
    Remotely Q (Prog.attempt (call (checkHandle h)) >>= fun _ => body) t := by
  have hcheck : Remotely (Post (fun _ t' => t' = t) fun t' => t' = t) (call (checkHandle h)) t := by
    refine remotely_call (remotely_one fun choice r t' effects hexec => ?_)
    obtain ⟨closed, heq⟩ := t.closeFile_cases choice h
    cases heq.symm.trans hexec
    exact ⟨by cases r <;> rfl, fun _ => rfl⟩
  refine Prog.wp_remote_bindE (M := os) heard (Prog.wp_remote_attempt (M := os) heard
    (Prog.wp_mono (fun r t' hr => ?_) hcheck))
  obtain rfl : t' = t := by cases r <;> exact hr
  exact hbody

theorem honest_heard : Honest heard := by
  intro lost tmp offset bytes r h
  cases lost with
  | none => exact h
  | some e => cases h

/-- The copy into an empty file is all that the reader has, or it fails on the way. -/
theorem remotely_ioCopy {tmp : Handle} {i : Nat} (htmp : tmp.node = .file i)
    (hempty : t.data i = []) (data : Reader) {done : Unit → FS → Prop}
    (hdone : ∀ content, Whole data content → done () (t.write i content))
    (hfailed : ∀ content, failed (t.write i content)) :
    Remotely (Post done failed) (LocalStorage.ioCopy tmp (data (32 * 1024))) t := by
  refine Prog.wp_mono (fun r t' hr => ?_) (Prog.wp_of_under
    (remote_ioCopy_writes honest_heard htmp hempty (data (32 * 1024))))
  obtain ⟨content, rfl, hcontent, _⟩ := hr
  cases r with
  | error e => exact hfailed content
  | ok _ => exact hdone content (hcontent rfl)

theorem remotely_rename {old new : Str} {done : Unit → FS → Prop} (hne : locate old ≠ locate new)
    (hdone : ∀ hm, t.node (locate new) ≠ some .dir →
      done () (t.rename (locate old) (locate new) hm))
    (hlost : ∀ hm, t.node (locate new) ≠ some .dir →
      failed (t.rename (locate old) (locate new) hm))
    (hfailed : failed t) : Remotely (Post done failed) (rename old new) t := by
  refine remotely_one fun choice r t' effects hexec => ?_
  rcases t.renamePath_cases choice old new with ⟨e, heq⟩ | ⟨hsame, _⟩ | ⟨hm, hdst, heq⟩
  · cases heq.symm.trans hexec
    exact ⟨hfailed, fun _ => hfailed⟩
  · exact absurd hsame hne
  · cases heq.symm.trans hexec
    exact ⟨hdone hm hdst, fun _ => hlost hm hdst⟩

end

/-! ## One write -/

/-- The target has the whole content. -/
def Brought (k : Loc) (data : Reader) (t' : FS) : Prop :=
  ∃ content, Whole data content ∧ t'.look k = some (.file content)

/-- What else may change: the temporary file, and new directories on the way. -/
def Spared (k tmp : Loc) (t t' : FS) : Prop :=
  ∀ l, l ≠ k → l ≠ tmp →
    t'.look l = t.look l ∨ (l <+: k.dropLast ∧ t.look l = none ∧ t'.look l = some .dir)

/-- How a write ends. -/
def Attempted (k tmp : Loc) (data : Reader) (t : FS) : Except Error Unit → FS → Prop :=
  Post (fun _ t' => Brought k data t' ∧ t'.look tmp = none ∧ Spared k tmp t t')
    fun t' => (t'.look k = t.look k ∨ Brought k data t') ∧ Spared k tmp t t'

section

variable {k tmp : Loc} {t t₁ t₂ : FS} {i : Nat}

/-- Up to the rename only the temporary file is touched. -/
theorem filling (hne : tmp ≠ k) (hadds : AddsDirs k.dropLast t t₁)
    (htrunc : Truncated tmp i t₁ t₂) (content : Str) :
    (t₂.write i content).look k = t.look k ∧ Spared k tmp t (t₂.write i content) := by
  refine ⟨?_, fun l hlk hlt => ?_⟩
  · rw [(htrunc.others_write content hne.symm).look, hadds.look_end]
  · rw [(htrunc.others_write content hlt).look]
    exact hadds.look l

/-- The rename brings the content to the target and takes the temporary file away. -/
theorem renamed (hadds : AddsDirs k.dropLast t t₁) (htrunc : Truncated tmp i t₁ t₂)
    {content : Str} {hm : (t₂.write i content).Movable tmp k}
    (hdst : (t₂.write i content).node k ≠ some .dir) {data : Reader} (hwhole : Whole data content) :
    Brought k data ((t₂.write i content).rename tmp k hm) ∧
      ((t₂.write i content).rename tmp k hm).look tmp = none ∧
      Spared k tmp t ((t₂.write i content).rename tmp k hm) := by
  have hfile : (t₂.write i content).node tmp = some (.file i) := htrunc.node
  refine ⟨⟨content, hwhole, ?_⟩, FS.look_rename_src hfile hdst, fun l hlk hlt => ?_⟩
  · rw [FS.look_rename_dst, look_write_self htrunc.node]
  · rw [FS.look_rename_file hfile hdst hlt hlk, (htrunc.others_write content hlt).look]
    exact hadds.look l

end

theorem sftpWrite_attempts (s : SftpFs) (habs : isAbs s.baseRoot = true) (nano : Int)
    (data : Reader) (parts : List Str) (t : FS) :
    Remotely (Attempted (locate (s.remoteJoin parts))
        (locate (SftpFs.tempPath (s.remoteJoin parts) nano)) data t)
      (s.atomicWriteFile nano data parts) t := by
  unfold SftpFs.atomicWriteFile
  dsimp only
  rw [remoteJoin_eq habs]
  generalize (locate s.baseRoot).reroot (join parts) = k
  have hne := locate_tempPath_ne k nano
  have hway : locate (dir k.path) = k.dropLast := by rw [dir_path, locate_path]
  rw [locate_path]
  have hadded : ∀ t₁, AddsDirs k.dropLast t t₁ →
      (t₁.look k = t.look k ∨ Brought k data t₁) ∧
        Spared k (locate (SftpFs.tempPath k.path nano)) t t₁ :=
    fun t₁ hadds => ⟨Or.inl hadds.look_end, fun l _ _ => hadds.look l⟩
  refine remotely_seq (remotely_failing (remotely_call (remotely_mkdirAll
    (fun t₁ hadds => ?_) fun t₁ hadds => hadded t₁ (hway ▸ hadds))))
  rw [hway] at hadds
  refine remotely_seq (remotely_failing (remotely_call (remotely_create
    (fun i t₂ htrunc => ?_) (fun i t₂ htrunc => ?_) (hadded t₁ hadds))))
  · have hleft : ∀ content, ((t₂.write i content).look k = t.look k ∨
          Brought k data (t₂.write i content)) ∧
        Spared k (locate (SftpFs.tempPath k.path nano)) t (t₂.write i content) :=
      fun content => (filling hne hadds htrunc content).imp_left Or.inl
    refine remotely_closing (remotely_seq (remotely_failing (remotely_call
      (remotely_ioCopy rfl htrunc.empty data (fun content hwhole => ?_) hleft))))
    have hpath : locate k.path = k := locate_path k
    refine remotely_ignored (remotely_failing (remotely_call (remotely_rename (by rwa [hpath])
      ?_ ?_ (hleft content))))
    · rw [hpath]
      exact fun hm hdst => renamed hadds htrunc hdst hwhole
    · rw [hpath]
      exact fun hm hdst => ⟨Or.inr (renamed hadds htrunc hdst hwhole).1,
        (renamed hadds htrunc hdst hwhole).2.2⟩
  · have hstart : t₂.write i [] = t₂ := by rw [← htrunc.empty, write_data]
    have hleft := (filling hne hadds htrunc []).imp_left (Or.inl (b := Brought k data t₂))
    rwa [hstart] at hleft

/-! ## One write after another -/

/-- A call of `AtomicWriteFile`, with the time at which it is made. -/
structure FileWrite where
  nano : Int
  data : Reader
  parts : List Str

namespace SftpFs

def target (s : SftpFs) (w : FileWrite) : Loc := locate (s.remoteJoin w.parts)

def temp (s : SftpFs) (w : FileWrite) : Loc := locate (tempPath (s.remoteJoin w.parts) w.nano)

/-- What the server and the line do in a call. -/
abbrev Line := Nat → Choice × Option Errno

def write (s : SftpFs) (w : FileWrite) (line : Line) (t : FS) : Except Error Unit × FS :=
  let ran := Prog.run (M := sftp) ((s.atomicWriteFile w.nano w.data w.parts).run.remote heard) line t
  (ran.value, ran.state)

/-- One call after another, each with the result that the client sees. -/
def writes (s : SftpFs) : List (FileWrite × Line) → FS → List (FileWrite × Except Error Unit) × FS
  | [], t => ([], t)
  | (w, line) :: ws, t =>
      let (result, t') := s.write w line t
      let (log, t'') := s.writes ws t'
      ((w, result) :: log, t'')

/-- No write to `k` was acknowledged. -/
def NoneAcknowledged (s : SftpFs) (k : Loc) (log : List (FileWrite × Except Error Unit)) : Prop :=
  ∀ w, s.target w = k → (w, .ok ()) ∉ log

end SftpFs

section

variable {s : SftpFs} {k : Loc}

theorem SftpFs.NoneAcknowledged.cons {w : FileWrite} {result : Except Error Unit}
    {log : List (FileWrite × Except Error Unit)} (h : s.NoneAcknowledged k log)
    (hw : s.target w = k → result ≠ .ok ()) : s.NoneAcknowledged k ((w, result) :: log) := by
  intro w' hw' hmem
  rcases List.mem_cons.mp hmem with heq | hmem
  · cases heq
    exact hw hw' rfl
  · exact h w' hw' hmem

/-- What a location other than the temporary file can hold after one call. -/
theorem write_cases (habs : isAbs s.baseRoot = true) (w : FileWrite) (line : SftpFs.Line) (t : FS)
    (htemp : s.temp w ≠ k) :
    ((s.write w line t).2.look k = t.look k ∧
        (s.target w = k → (s.write w line t).1 ≠ .ok ())) ∨
      (s.target w = k ∧ Brought k w.data (s.write w line t).2) ∨
      (s.target w ≠ k ∧ k <+: s.target w ∧ t.look k = none ∧
        (s.write w line t).2.look k = some .dir) := by
  have hends : Attempted (s.target w) (s.temp w) w.data t (s.write w line t).1
      (s.write w line t).2 :=
    (Prog.run_of_wp (sftpWrite_attempts s habs w.nano w.data w.parts t) line).2
  generalize (s.write w line t).1 = result at hends ⊢
  generalize (s.write w line t).2 = t' at hends ⊢
  have hspared : Spared (s.target w) (s.temp w) t t' := by
    cases result with
    | ok _ => exact hends.2.2
    | error e => exact hends.2
  by_cases hk : s.target w = k
  · rw [hk] at hends
    cases result with
    | ok _ => exact Or.inr (Or.inl ⟨hk, hends.1⟩)
    | error e =>
      rcases hends.1 with hsame | hbrought
      · exact Or.inl ⟨hsame, fun _ h => by cases h⟩
      · exact Or.inr (Or.inl ⟨hk, hbrought⟩)
  · rcases hspared k (Ne.symm hk) (Ne.symm htemp) with hsame | ⟨hway, hnone, hdir⟩
    · exact Or.inl ⟨hsame, fun h => absurd h hk⟩
    · exact Or.inr (Or.inr ⟨hk, hway.trans ( List.dropLast_prefix _), hnone, hdir⟩)

end

/-- What `k` can hold after the calls of a log: what it held before, or a directory on the way
to a target, if no write to `k` was acknowledged; else the whole content of a write to `k`
after which none was. -/
def LastWritten (s : SftpFs) (k : Loc) (was : Option Entry)
    (log : List (FileWrite × Except Error Unit)) (now : Option Entry) : Prop :=
  (now = was ∧ s.NoneAcknowledged k log) ∨
    (∃ earlier w result later content, log = earlier ++ (w, result) :: later ∧ s.target w = k ∧
      Whole w.data content ∧ now = some (.file content) ∧ s.NoneAcknowledged k later) ∨
    (was = none ∧ now = some .dir ∧ s.NoneAcknowledged k log ∧
      ∃ w result, (w, result) ∈ log ∧ s.target w ≠ k ∧ k <+: s.target w)

/-- **An acknowledged write is kept.** Calls of `AtomicWriteFile` are made one after another, on
a server and over a line where every call may fail and every reply may be lost. A location that
is not one of the temporary files never holds a part of a content. It holds what the last
acknowledged write brought, or what a later write brought of which the client heard an error;
without an acknowledged write it may also be as it was, or a directory on the way to a target. -/
theorem sftp_acknowledged_kept (s : SftpFs) (habs : isAbs s.baseRoot = true)
    (ws : List (FileWrite × SftpFs.Line)) (k : Loc) (htemp : ∀ w ∈ ws, s.temp w.1 ≠ k) (t : FS) :
    LastWritten s k (t.look k) (s.writes ws t).1 ((s.writes ws t).2.look k) := by
  induction ws generalizing t with
  | nil => exact Or.inl ⟨rfl, fun w _ hmem => by cases hmem⟩
  | cons first ws ih =>
    obtain ⟨w, line⟩ := first
    have hrest := ih (fun w' hw' => htemp w' (List.mem_cons_of_mem _ hw')) (s.write w line t).2
    have hfirst := write_cases habs w line t (htemp (w, line) List.mem_cons_self)
    have hlog : (s.writes ((w, line) :: ws) t).1 =
        (w, (s.write w line t).1) :: (s.writes ws (s.write w line t).2).1 := rfl
    have hstate : (s.writes ((w, line) :: ws) t).2 = (s.writes ws (s.write w line t).2).2 := rfl
    rw [hlog, hstate]
    generalize (s.writes ws (s.write w line t).2).2.look k = now at hrest ⊢
    generalize (s.writes ws (s.write w line t).2).1 = log at hrest ⊢
    rcases hrest with ⟨rfl, hnone⟩ | ⟨earlier, w', result, later, content, rfl, hlast⟩ |
        ⟨hwas, rfl, hnone, hdir⟩
    · -- the first write is the last that did something at `k`
      rcases hfirst with ⟨hsame, hfailed⟩ | ⟨hk, content, hwhole, hlook⟩ | ⟨hk, hway, hwas, hdir⟩
      · exact Or.inl ⟨hsame, hnone.cons hfailed⟩
      · exact Or.inr (Or.inl ⟨[], w, _, log, content, rfl, hk, hwhole, hlook, hnone⟩)
      · exact Or.inr (Or.inr ⟨hwas, hdir, hnone.cons fun h => absurd h hk,
          w, _, List.mem_cons_self, hk, hway⟩)
    · exact Or.inr (Or.inl ⟨(w, (s.write w line t).1) :: earlier, w', result, later, content,
        rfl, hlast⟩)
    · rcases hfirst with ⟨hsame, hfailed⟩ | ⟨_, content, _, hlook⟩ | ⟨_, _, _, hlook⟩
      · obtain ⟨w', result, hmem, hk, hway⟩ := hdir
        exact Or.inr (Or.inr ⟨hsame.symm.trans hwas, rfl, hnone.cons hfailed,
          w', result, List.mem_cons_of_mem _ hmem, hk, hway⟩)
      · cases hlook.symm.trans hwas
      · cases hlook.symm.trans hwas

/-- A file is written, and written again with the reply of the rename lost: the client hears an
error, and the new content is there. -/
theorem sftp_acknowledged_kept_lost_reply :
    let s : SftpFs := ⟨str "/srv"⟩
    let smooth : SftpFs.Line := fun _ => (.smooth [], none)
    let losing : SftpFs.Line := fun n => (.smooth [], if n = 4 then some .exist else none)
    let ws := [((⟨1, newReader (str "old"), [str "f"]⟩ : FileWrite), smooth),
      (⟨2, newReader (str "new"), [str "f"]⟩, losing)]
    let k := locate (str "/srv/f")
    (s.writes ws FS.empty).1.map Prod.snd =
        [.ok (), .error (.wrapped (str "sftp rename") (.errno .exist))] ∧
      (s.writes ws FS.empty).2.look k = some (.file (str "new")) ∧
      LastWritten s k (FS.empty.look k) (s.writes ws FS.empty).1
        ((s.writes ws FS.empty).2.look k) := by
  intro s smooth losing ws k
  have habs : isAbs s.baseRoot = true := by decide
  have htemp : ∀ w ∈ ws, s.temp w.1 ≠ k := by
    refine List.forall_mem_cons.mpr ⟨?_, List.forall_mem_singleton.mpr ?_⟩ <;> decide +kernel
  exact ⟨by decide +kernel, by decide +kernel, sftp_acknowledged_kept s habs ws k htemp FS.empty⟩

end FileEngine.Filesystem
