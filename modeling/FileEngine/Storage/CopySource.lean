import FileEngine.Storage.FailedWrites
import FileEngine.Storage.ObjectMoves

/-!
# The source of a copy

`urlPathEscape` in `internal/adapters/storage/s3`. The provider percent-decodes the
header `CopySource`; the backend escapes spaces in it and nothing else. So a name that
has an escape of its own, a `%` before two hexadecimal digits, is read as another name
(`percentDecode_urlPathEscape`), and `Move` and `AtomicWrite` copy the object they mean
exactly if there is no escape in the bucket and the key (`copySource_faithful_iff`).
-/

namespace FileEngine.ObjectStore

open Go

/-! ## Percent-decoding -/

/-- The byte that an escape at the beginning of a string stands for. -/
def escape : Str → Option UInt8
  | 37 :: h :: l :: _ =>
      match hexValue h, hexValue l with
      | some h, some l => some (UInt8.ofNat (16 * h + l))
      | _, _ => none
  | _ => none

/-- Every escape is replaced by its byte; a `%` that begins none stands for itself. -/
def percentDecode : Str → Str
  | [] => []
  | c :: rest =>
      match escape (c :: rest), rest with
      | some b, _ :: _ :: rest => b :: percentDecode rest
      | _, rest => c :: percentDecode rest

/-- An escape begins somewhere in the string. -/
def HasEscape (s : Str) : Prop := ∃ t ∈ s.tails, (escape t).isSome = true

instance (s : Str) : Decidable (HasEscape s) := inferInstanceAs (Decidable (∃ t ∈ s.tails, _))

theorem hasEscape_cons {c : UInt8} {s : Str} :
    HasEscape (c :: s) ↔ (escape (c :: s)).isSome = true ∨ HasEscape s := by
  simp [HasEscape]

theorem escape_of_ne {c : UInt8} (h : c ≠ 37) (s : Str) : escape (c :: s) = none := by
  unfold escape
  split
  · rename_i heq
    exact absurd (List.cons.inj heq).1 h
  · rfl

theorem escape_of_digits {d e : UInt8} (h : hexValue d = none ∨ hexValue e = none) (rest : Str) :
    escape (37 :: d :: e :: rest) = none := by
  rcases h with h | h
  · simp only [escape, h]
  · simp only [escape, h]
    cases hexValue d <;> rfl

theorem exists_of_escape {s : Str} {b : UInt8} (h : escape s = some b) :
    ∃ d e rest, s = 37 :: d :: e :: rest := by
  unfold escape at h
  split at h
  · exact ⟨_, _, _, rfl⟩
  · cases h

theorem percentDecode_miss {c : UInt8} {s : Str} (h : escape (c :: s) = none) :
    percentDecode (c :: s) = c :: percentDecode s := by
  rw [percentDecode.eq_def]
  simp only [h]

theorem percentDecode_hit {c d e b : UInt8} {rest : Str}
    (h : escape (c :: d :: e :: rest) = some b) :
    percentDecode (c :: d :: e :: rest) = b :: percentDecode rest := by
  rw [percentDecode.eq_def]
  simp only [h]

/-! ## Escaping spaces -/

open S3Storage

theorem urlPathEscape_space (s : Str) :
    urlPathEscape (32 :: s) = 37 :: 50 :: 48 :: urlPathEscape s :=
  replaceAll_hit (by decide) s

theorem urlPathEscape_cons {c : UInt8} (h : c ≠ 32) (s : Str) :
    urlPathEscape (c :: s) = c :: urlPathEscape s := by
  apply replaceAll_miss
  rintro ⟨rest, hrest⟩
  exact h (List.cons.inj hrest).1.symm

/-- Escaped spaces are no part of another escape. -/
theorem escape_urlPathEscape (c : UInt8) (s : Str) :
    escape (c :: urlPathEscape s) = escape (c :: s) := by
  by_cases hc : c = 37
  · subst hc
    match s with
    | [] => rfl
    | [d] =>
      by_cases hd : d = 32
      · subst hd
        decide
      · rw [urlPathEscape_cons hd]
        rfl
    | d :: e :: rest =>
      by_cases hd : d = 32
      · subst hd
        rw [urlPathEscape_space]
        rfl
      · rw [urlPathEscape_cons hd]
        by_cases he : e = 32
        · subst he
          rw [urlPathEscape_space, escape_of_digits (Or.inr rfl), escape_of_digits (Or.inr rfl)]
        · rw [urlPathEscape_cons he]
          rfl
  · rw [escape_of_ne hc, escape_of_ne hc]

/-- A string without escapes is read as it was meant. -/
theorem percentDecode_of_not_hasEscape {s : Str} (h : ¬ HasEscape s) :
    percentDecode (urlPathEscape s) = s := by
  induction s with
  | nil => rfl
  | cons c s ih =>
    obtain ⟨hhead, hrest⟩ := not_or.mp (mt hasEscape_cons.mpr h)
    by_cases hc : c = 32
    · subst hc
      rw [urlPathEscape_space, percentDecode_hit (b := 32) rfl, ih hrest]
    · rw [urlPathEscape_cons hc, percentDecode_miss, ih hrest]
      rw [escape_urlPathEscape]
      exact Option.not_isSome_iff_eq_none.mp hhead

/-- Decoding never makes up for an escape: the result is shorter. -/
theorem length_percentDecode (s : Str) :
    (percentDecode (urlPathEscape s)).length ≤ s.length ∧
      (HasEscape s → (percentDecode (urlPathEscape s)).length < s.length) := by
  generalize hn : s.length = n
  induction n using Nat.strongRecOn generalizing s with
  | ind n ih =>
    match s with
    | [] => exact ⟨Nat.zero_le _, fun h => absurd h (by decide)⟩
    | c :: s =>
      rw [List.length_cons] at hn
      obtain ⟨hle, hlt⟩ := ih s.length (by omega) s rfl
      by_cases hc : c = 32
      · subst hc
        rw [urlPathEscape_space, percentDecode_hit (b := 32) rfl, List.length_cons]
        refine ⟨by omega, fun h => ?_⟩
        have hrest : HasEscape s := (hasEscape_cons.mp h).resolve_left (by simp [escape_of_ne])
        have := hlt hrest
        omega
      · rw [urlPathEscape_cons hc]
        cases hesc : escape (c :: s) with
        | none =>
          rw [percentDecode_miss (by rw [escape_urlPathEscape, hesc]), List.length_cons]
          refine ⟨by omega, fun h => ?_⟩
          have hrest : HasEscape s := (hasEscape_cons.mp h).resolve_left (by simp [hesc])
          have := hlt hrest
          omega
        | some b =>
          -- the two digits of the escape are lost
          obtain ⟨d, e, rest, heq⟩ := exists_of_escape hesc
          obtain ⟨rfl, rfl⟩ := List.cons.inj heq
          have hd : d ≠ 32 := by
            rintro rfl
            cases (escape_of_digits (Or.inl rfl) rest).symm.trans hesc
          have he : e ≠ 32 := by
            rintro rfl
            cases (escape_of_digits (Or.inr rfl) rest).symm.trans hesc
          have hesc' : escape (37 :: d :: e :: urlPathEscape rest) = some b := by
            rw [← urlPathEscape_cons he, ← urlPathEscape_cons hd, escape_urlPathEscape, hesc]
          simp only [List.length_cons] at hn
          have := (ih rest.length (by omega) rest rfl).1
          rw [urlPathEscape_cons hd, urlPathEscape_cons he, percentDecode_hit hesc',
            List.length_cons]
          exact ⟨by omega, fun _ => by omega⟩

/-- The provider reads what was meant exactly if there is no escape in it. -/
theorem percentDecode_urlPathEscape (s : Str) :
    percentDecode (urlPathEscape s) = s ↔ ¬ HasEscape s := by
  refine ⟨fun h hesc => ?_, percentDecode_of_not_hasEscape⟩
  have := (length_percentDecode s).2 hesc
  rw [h] at this
  omega

/-! ## Temporary keys -/

theorem not_hasEscape_of_not_mem {s : Str} (h : 37 ∉ s) : ¬ HasEscape s := by
  induction s with
  | nil => decide
  | cons c s ih =>
    obtain ⟨hc, hs⟩ := not_or.mp (mt List.mem_cons.mpr h)
    rw [hasEscape_cons, escape_of_ne (Ne.symm hc)]
    exact fun h => ih hs (h.resolve_left Bool.false_ne_true)

theorem escape_append_dot (c : UInt8) (s t : Str) :
    escape (c :: (s ++ 46 :: t)) = none ↔ escape (c :: s) = none := by
  by_cases hc : c = 37
  · subst hc
    match s with
    | [] =>
      cases t with
      | nil => exact Iff.rfl
      | cons d t => exact iff_of_true (escape_of_digits (Or.inl rfl) t) rfl
    | [d] => exact iff_of_true (escape_of_digits (Or.inr rfl) t) rfl
    | d :: e :: rest => exact Iff.rfl
  · rw [escape_of_ne hc, escape_of_ne hc]

/-- The dot ends every escape before it. -/
theorem hasEscape_append_dot (s : Str) {t : Str} (ht : 37 ∉ t) :
    HasEscape (s ++ 46 :: t) ↔ HasEscape s := by
  induction s with
  | nil =>
    refine iff_of_false (not_hasEscape_of_not_mem ?_) (by decide)
    simpa using ht
  | cons c s ih =>
    rw [List.cons_append, hasEscape_cons, hasEscape_cons, ih, Option.isSome_iff_ne_none,
      Option.isSome_iff_ne_none, ne_eq, ne_eq, escape_append_dot]

theorem hasEscape_tmpKey (s key bytes : Str) :
    HasEscape (s ++ tmpKey key (hexEncode bytes)) ↔ HasEscape (s ++ key) := by
  have hsuffix : 37 ∉ str "tmp-" ++ hexEncode bytes := by
    intro hmem
    rcases List.mem_append.mp hmem with hmem | hmem
    · exact absurd hmem (by decide)
    · exact absurd (le_of_mem_hexEncode hmem) (by decide)
  rw [← hasEscape_append_dot (s ++ key) hsuffix, tmpKey]
  simp only [List.append_assoc]
  rfl

/-! ## What is copied -/

/-- Every copy is of the object with this key. -/
def CopiesOnly (key : Str) (e : Effect) : Prop := ∀ src dst, e = .copied src dst → src = key

/-- `Move` copies the object at the key of `src` and no other one, and if no request fails
it does so. -/
def S3Storage.MoveCopies (s : S3Storage) (src : Str) : Prop :=
  ∀ dst b choices, let ran := Prog.run (s.move percentDecode src dst).run choices b
    (∀ e ∈ ran.effects, CopiesOnly (s.key src) e) ∧
    ((∀ n, (choices n).fault = none) → s.key src ≠ s.key dst →
      ∀ body, b.lookup (s.key src) = some body →
        ran.value = .ok () ∧ ran.state.lookup (s.key dst) = some body)

/-- `AtomicWrite` copies the object at its temporary key and no other one, and if nothing
fails it does so. -/
def S3Storage.WriteCopies (s : S3Storage) (path : Str) : Prop :=
  ∀ r b choices, let ran := Prog.run (s.atomicWrite percentDecode path r).run choices b
    (∀ e ∈ ran.effects, CopiesOnly (tmpOf (s.key path) (choices 0)) e) ∧
    ((∀ n, (choices n).fault = none) → (r (32 * 1024)).err = .eof →
      ran.value = .ok () ∧ ran.state.lookup (s.key path) = some (r (32 * 1024)).bytes)

section

variable {s : S3Storage} {b : Bucket}

theorem copySource_iff (s : S3Storage) (key : Str) :
    percentDecode (s.copySource key) = s.bucket ++ [slash] ++ key ↔
      ¬ HasEscape (s.bucket ++ [slash] ++ key) :=
  percentDecode_urlPathEscape _

/-- From every bucket, the program copies the object with this key and no other one. -/
def OnlyCopies {α : Type} (key : Str) (p : CloudM α) : Prop :=
  ∀ b, Prog.Wp (CopiesOnly key) (fun _ _ => True) p.run b

theorem onlyCopies_bind {α β : Type} {key : Str} {p : CloudM α} {f : α → CloudM β}
    (hp : OnlyCopies key p) (hf : ∀ a, OnlyCopies key (f a)) : OnlyCopies key (p >>= f) := by
  intro b
  refine Prog.wp_bindE (Prog.wp_mono (fun r b' _ => ?_) (hp b))
  cases r with
  | error e => trivial
  | ok a => exact hf a b'

theorem onlyCopies_attempt {α : Type} {key : Str} {p : CloudM α} (hp : OnlyCopies key p) :
    OnlyCopies key (Prog.attempt p) :=
  fun b => Prog.wp_attempt (hp b)

theorem onlyCopies_put (key k body : Str) : OnlyCopies key (put k body) := by
  refine fun b => Prog.wp_call fun choice r b' effects hexec => ⟨?_, trivial⟩
  rcases b.put_cases choice k body with ⟨e, _, heq⟩ | ⟨_, heq⟩ <;> cases heq.symm.trans hexec
  · simp
  · simp [CopiesOnly]

theorem onlyCopies_delete (key k : Str) (missingOk : Bool) :
    OnlyCopies key (ObjectStore.delete k missingOk) := by
  refine fun b => Prog.wp_call fun choice r b' effects hexec => ⟨?_, trivial⟩
  rcases b.delete_cases choice k missingOk with ⟨e, heq⟩ | heq <;> cases heq.symm.trans hexec
  · simp
  · simp [CopiesOnly]

theorem onlyCopies_copy (key dst : Str) (ontoItself : Bool) :
    OnlyCopies key (copy key dst ontoItself) := by
  refine fun b => Prog.wp_call fun choice r b' effects hexec => ⟨?_, trivial⟩
  rcases b.copy_cases choice key dst ontoItself with ⟨e, heq⟩ | ⟨_, _, _, heq⟩ <;>
    cases heq.symm.trans hexec
  · simp
  · simp [CopiesOnly, eq_comm]

theorem onlyCopies_putObject (key k : Str) (reads : Reads) :
    OnlyCopies key (putObject k reads) := by
  unfold putObject
  split
  · exact onlyCopies_put key k _
  · exact fun _ => trivial

theorem moveCopies_of_not_hasEscape {src : Str}
    (h : ¬ HasEscape (s.bucket ++ [slash] ++ s.key src)) : s.MoveCopies src := by
  intro dst b choices ran
  have hprog : s.move percentDecode src dst = copyThenDelete (s.key src) (s.key dst) false true :=
    s3_move_eq ((copySource_iff s _).mpr h) dst
  have hran : ran = Prog.run (copyThenDelete (s.key src) (s.key dst) false true).run choices b :=
    congrArg (fun p => Prog.run p choices b) hprog
  rw [hran]
  constructor
  · have honly : OnlyCopies (s.key src) (copyThenDelete (s.key src) (s.key dst) false true) :=
      onlyCopies_bind (onlyCopies_copy _ _ _) fun _ => onlyCopies_delete _ _ _
    exact (Prog.run_of_wp (honly b) choices).1
  · intro hsmooth hne body hbody
    have hunder : Prog.Under Smooth
        (fun v b' => v = .ok () ∧ Finmap.lookup (s.key dst) b' = some body)
        (copyThenDelete (s.key src) (s.key dst) false true).run b := by
      refine Prog.under_bindE (under_copy hbody (fun hsame => absurd hsame hne) ?_)
      refine under_delete (fun _ => rfl) ⟨rfl, ?_⟩
      rw [Finmap.lookup_erase_ne hne.symm, Finmap.lookup_insert]
    exact Prog.run_of_under hunder (obeys_smooth hsmooth _ b)

/-- The rest of a write, once the temporary key is known. -/
def finishWrite (s : S3Storage) (path : Str) (r : Reader) (tmp : Str) : CloudM Unit := do
  putObject tmp (r (32 * 1024))
  s.copyObject percentDecode (s.key path) (s.copySource tmp)
  let _ ← Prog.attempt (deleteObject tmp)

theorem run_atomicWrite_eq (s : S3Storage) (path : Str) (r : Reader) (choices : Nat → Choice) :
    Prog.run (s.atomicWrite percentDecode path r).run choices b =
      Prog.run (finishWrite s path r (tmpOf (s.key path) (choices 0))).run
        (fun n => choices (n + 1)) b :=
  rfl

theorem writeCopies_of_not_hasEscape {path : Str}
    (h : ¬ HasEscape (s.bucket ++ [slash] ++ s.key path)) : s.WriteCopies path := by
  intro r b choices ran
  have hran : ran = _ := run_atomicWrite_eq s path r choices
  rw [hran]
  set tmp := tmpOf (s.key path) (choices 0)
  have hcopy : s.copyObject percentDecode (s.key path) (s.copySource tmp) =
      copy tmp (s.key path) false :=
    copyObject_eq ((copySource_iff s tmp).mpr (mt (hasEscape_tmpKey _ _ _).mp h)) _
  constructor
  · have honly : OnlyCopies tmp (finishWrite s path r tmp) := by
      unfold finishWrite
      rw [hcopy]
      exact onlyCopies_bind (onlyCopies_putObject _ _ _) fun _ =>
        onlyCopies_bind (onlyCopies_copy _ _ _) fun _ =>
          onlyCopies_bind (onlyCopies_attempt (onlyCopies_delete _ _ _)) fun _ _ => trivial
    exact (Prog.run_of_wp (honly b) _).1
  · intro hsmooth heof
    have hne : tmp ≠ s.key path := by
      intro hsame
      have := congrArg List.length hsame
      simp [tmp, tmpOf, tmpKey, str] at this
    have hunder : Prog.Under Smooth
        (fun v b' => v = .ok () ∧ Finmap.lookup (s.key path) b' = some (r (32 * 1024)).bytes)
        (finishWrite s path r tmp).run b := by
      unfold finishWrite putObject
      rw [hcopy, heof]
      refine Prog.under_bindE (under_put ?_)
      refine Prog.under_bindE
        (under_copy (Finmap.lookup_insert b) (fun hsame => absurd hsame hne) ?_)
      refine Prog.under_bindE (Prog.under_attempt (under_delete (fun _ => rfl) ⟨rfl, ?_⟩))
      rw [Finmap.lookup_erase_ne hne.symm, Finmap.lookup_insert]
    exact Prog.run_of_under hunder (obeys_smooth (fun n => hsmooth (n + 1)) _ b)

/-- With an escape, the source is looked for under another name, or in another bucket. -/
theorem copyObject_misses {key dst : Str} (h : HasEscape (s.bucket ++ [slash] ++ key))
    (hb : ∀ k, k ≠ key → b.lookup k = none) :
    Prog.Wp AnyEffect (fun v _ => v ≠ .ok ())
      (s.copyObject percentDecode dst (s.copySource key)).run b := by
  have hnamed := mt (copySource_iff s key).mp (not_not.mpr h)
  unfold copyObject
  dsimp only
  split
  · rename_i hpre
    obtain ⟨other, hother⟩ := hasPrefix_iff.mp hpre
    have hmissing : b.lookup other = none := hb other fun hsame => hnamed (hsame ▸ hother.symm)
    rw [← hother, List.drop_left]
    refine Prog.wp_call fun choice v b' effects hexec => ⟨fun _ _ => trivial, ?_⟩
    rcases b.copy_cases choice other dst false with ⟨e, heq⟩ | ⟨body, hbody, _, _⟩
    · cases heq.symm.trans hexec
      exact nofun
    · cases hmissing.symm.trans hbody
  · exact nofun

/-- A program that fails if its first part does. -/
theorem wp_fails_bind {p : CloudM Unit} {f : Unit → CloudM Unit}
    (hp : Prog.Wp AnyEffect (fun v _ => v ≠ .ok ()) p.run b) :
    Prog.Wp AnyEffect (fun v _ => v ≠ .ok ()) (p >>= f).run b := by
  refine Prog.wp_bindE (Prog.wp_mono (fun v b' hv => ?_) hp)
  cases v with
  | ok _ => exact absurd rfl hv
  | error e => exact nofun

theorem not_moveCopies {src : Str} (h : HasEscape (s.bucket ++ [slash] ++ s.key src)) :
    ¬ s.MoveCopies src := by
  intro hcopies
  have hdst : s.key (src ++ str ".tmp-" ++ []) = tmpKey (s.key src) [] := keyIn_tmp s.ns src []
  have hne : s.key src ≠ s.key (src ++ str ".tmp-" ++ []) := by
    intro hsame
    have := congrArg List.length (hsame.trans hdst)
    simp [tmpKey, str] at this
  have hok := ((hcopies _ ((∅ : Bucket).insert (s.key src) []) fun _ => .smooth []).2
    (fun _ => rfl) hne [] (Finmap.lookup_insert _)).1
  refine (Prog.run_of_wp (wp_fails_bind (copyObject_misses h fun k hk => ?_)) _).2 hok
  rw [Finmap.lookup_insert_of_ne _ hk, Finmap.lookup_empty]

theorem not_writeCopies {path : Str} (h : HasEscape (s.bucket ++ [slash] ++ s.key path)) :
    ¬ s.WriteCopies path := by
  intro hcopies
  have hok := ((hcopies (newReader []) ∅ fun _ => .smooth []).2 (fun _ => rfl) rfl).1
  rw [run_atomicWrite_eq] at hok
  have hwp : Prog.Wp AnyEffect (fun v _ => v ≠ .ok ())
      (finishWrite s path (newReader []) (tmpOf (s.key path) (.smooth []))).run ∅ := by
    refine Prog.wp_bindE (Prog.wp_call fun choice v b' effects hexec => ⟨fun _ _ => trivial, ?_⟩)
    rcases Bucket.put_cases ∅ choice _ _ with ⟨e, _, heq⟩ | ⟨_, heq⟩
    · cases heq.symm.trans hexec
      exact nofun
    · cases heq.symm.trans hexec
      refine wp_fails_bind (copyObject_misses ((hasEscape_tmpKey _ _ _).mpr h) fun k hk => ?_)
      rw [Finmap.lookup_insert_of_ne _ hk, Finmap.lookup_empty]
  exact (Prog.run_of_wp hwp _).2 hok

end

/-- **The source of a copy.** The provider reads in `CopySource` the bucket and key that
were put there exactly if there is no escape in them, and it is under the same condition
that `Move` and `AtomicWrite` copy the object at the key they computed and no other
one. -/
theorem copySource_faithful_iff (s : S3Storage) (key src path : Str) :
    (percentDecode (s.copySource key) = s.bucket ++ [slash] ++ key ↔
      ¬ HasEscape (s.bucket ++ [slash] ++ key)) ∧
    (s.MoveCopies src ↔ ¬ HasEscape (s.bucket ++ [slash] ++ s.key src)) ∧
    (s.WriteCopies path ↔ ¬ HasEscape (s.bucket ++ [slash] ++ s.key path)) :=
  ⟨copySource_iff s key,
    ⟨fun h hesc => not_moveCopies hesc h, moveCopies_of_not_hasEscape⟩,
    ⟨fun h hesc => not_writeCopies hesc h, writeCopies_of_not_hasEscape⟩⟩

/-- `Move("/a%20b", "/c")` where there is also an object `a b`: the copy is of that one,
and then the object that was to be moved is deleted. -/
theorem move_copies_another :
    let b : Bucket := ((∅ : Bucket).insert (str "a%20b") (str "x")).insert (str "a b") (str "y")
    let ran := Prog.run (S3Storage.move percentDecode ⟨str "bucket", []⟩ (str "/a%20b") (str "/c"))
      (fun _ => .smooth []) b
    percentDecode (S3Storage.copySource ⟨str "bucket", []⟩ (str "a%20b")) = str "bucket/a b" ∧
      ran.value = .ok () ∧ ran.effects = [.copied (str "a b") (str "c"), .deleted (str "a%20b")] ∧
      ran.state.lookup (str "c") = some (str "y") ∧ ran.state.lookup (str "a%20b") = none := by
  refine ⟨by decide, ?_, ?_, ?_, ?_⟩ <;> decide

end FileEngine.ObjectStore
