import Mathlib.Data.Finset.Sort
import Mathlib.Data.List.Infix
import Mathlib.Data.List.SplitBy
import Mathlib.Tactic.Common

/-!
# Byte strings and the `strings` package

A Go string is an arbitrary sequence of bytes, so `Str` is a list of bytes and no
validity of UTF-8 is assumed anywhere. The functions of the `strings` package that
the development uses are given here with their documented behaviour:

* `hasPrefix`, `hasSuffix`, `trimPrefix`, `trimSuffix`, `contains`;
* `replaceAll`, which replaces non-overlapping occurrences from the left
  (`old` is never empty here);
* `squeeze`, which is not of the package: what repeated replacing of `//` leads to;
* `trimSpace`, which removes leading and trailing white-space runes. The
  white-space runes are listed by their encodings (`spaceRunes`). No encoding is a
  proper prefix or suffix of another one, so stripping encodings from either end is
  the same as decoding runes there.

The results about trimming are stated for an arbitrary set of words to strip.
-/

namespace FileEngine.Go

/-- A Go string: a sequence of bytes. -/
abbrev Str := List UInt8

/-- The bytes of an ASCII literal. -/
def str (s : String) : Str := s.toList.map fun c => UInt8.ofNat c.toNat

/-- The separator `/`. -/
def slash : UInt8 := 47

/-- The strings of a set in the order of their bytes. -/
def sorted (strings : Finset Str) : List Str := strings.sort (· ≤ ·)

@[simp] theorem mem_sorted {strings : Finset Str} {s : Str} : s ∈ sorted strings ↔ s ∈ strings :=
  Finset.mem_sort _

theorem nodup_sorted (strings : Finset Str) : (sorted strings).Nodup := Finset.sort_nodup _ _

/-! ## Prefixes, suffixes and substrings -/

def hasPrefix (s pre : Str) : Bool := pre.isPrefixOf s

def hasSuffix (s suf : Str) : Bool := suf.isSuffixOf s

def trimPrefix (s pre : Str) : Str := if hasPrefix s pre then s.drop pre.length else s

def trimSuffix (s suf : Str) : Str :=
  if hasSuffix s suf then s.take (s.length - suf.length) else s

def contains (s sub : Str) : Bool := decide (sub <:+: s)

theorem hasPrefix_iff {s pre : Str} : hasPrefix s pre = true ↔ pre <+: s :=
  List.isPrefixOf_iff_prefix

theorem contains_iff {s sub : Str} : contains s sub = true ↔ sub <:+: s := by
  simp [contains]

theorem trimPrefix_append (pre s : Str) : trimPrefix (pre ++ s) pre = s := by
  have h : hasPrefix (pre ++ s) pre = true := hasPrefix_iff.mpr (List.prefix_append pre s)
  simp [trimPrefix, h]

theorem hasSuffix_iff {s suf : Str} : hasSuffix s suf = true ↔ suf <:+ s :=
  List.isSuffixOf_iff_suffix

theorem trimSuffix_append (s suf : Str) : trimSuffix (s ++ suf) suf = s := by
  have h : hasSuffix (s ++ suf) suf = true := hasSuffix_iff.mpr (List.suffix_append s suf)
  simp [trimSuffix, h]

/-! ## Replacing -/

/-- `replaceAll` with the number of bytes of the last occurrence still to be skipped. -/
def replaceFrom (old new : Str) : Nat → Str → Str
  | _, [] => []
  | skip + 1, _ :: cs => replaceFrom old new skip cs
  | 0, c :: cs =>
      if old.isPrefixOf (c :: cs) then new ++ replaceFrom old new (old.length - 1) cs
      else c :: replaceFrom old new 0 cs

def replaceAll (s old new : Str) : Str := replaceFrom old new 0 s

theorem replaceFrom_skip (old new : Str) (n : Nat) (s : Str) :
    replaceFrom old new n s = replaceFrom old new 0 (s.drop n) := by
  induction n generalizing s with
  | zero => rfl
  | succ n ih =>
    cases s with
    | nil => rfl
    | cons c cs => exact ih cs

theorem replaceAll_nil (old new : Str) : replaceAll [] old new = [] := rfl

theorem replaceAll_hit {old new : Str} (hold : old ≠ []) (s : Str) :
    replaceAll (old ++ s) old new = new ++ replaceAll s old new := by
  obtain ⟨c, cs, rfl⟩ := List.exists_cons_of_ne_nil hold
  have hpre : (c :: cs).isPrefixOf ((c :: cs) ++ s) = true :=
    List.isPrefixOf_iff_prefix.mpr (List.prefix_append _ _)
  simp only [replaceAll, List.cons_append, replaceFrom] at hpre ⊢
  rw [if_pos hpre, replaceFrom_skip]
  simp

theorem replaceAll_miss {old new : Str} {c : UInt8} {cs : Str} (h : ¬ old <+: c :: cs) :
    replaceAll (c :: cs) old new = c :: replaceAll cs old new := by
  have h' : ¬ old.isPrefixOf (c :: cs) = true := fun hp => h (List.isPrefixOf_iff_prefix.mp hp)
  simp only [replaceAll, replaceFrom, if_neg h']

theorem length_replaceAll_le {old new : Str} (hold : old ≠ []) (hlen : new.length ≤ old.length)
    (s : Str) : (replaceAll s old new).length ≤ s.length := by
  generalize hn : s.length = n
  induction n using Nat.strongRecOn generalizing s with
  | ind n ih =>
    have hpos : 0 < old.length := List.length_pos_iff.mpr hold
    by_cases hpre : old <+: s
    · obtain ⟨t, rfl⟩ := hpre
      rw [List.length_append] at hn
      have := ih t.length (by omega) t rfl
      rw [replaceAll_hit hold, List.length_append]
      omega
    · cases s with
      | nil => simp [replaceAll_nil]
      | cons c cs =>
        rw [List.length_cons] at hn
        have := ih cs.length (by omega) cs rfl
        rw [replaceAll_miss hpre, List.length_cons]
        omega

/-- Replacing by something shorter makes progress where there is an occurrence. -/
theorem length_replaceAll_lt {old new : Str} (hlen : new.length < old.length) {s : Str}
    (h : old <:+: s) : (replaceAll s old new).length < s.length := by
  have hold : old ≠ [] := by
    rintro rfl
    simp at hlen
  induction s with
  | nil => exact absurd (List.infix_nil.mp h) hold
  | cons c cs ih =>
    by_cases hpre : old <+: c :: cs
    · obtain ⟨t, ht⟩ := hpre
      have := length_replaceAll_le hold hlen.le t
      rw [← ht, replaceAll_hit hold, List.length_append, List.length_append]
      omega
    · rw [replaceAll_miss hpre, List.length_cons, List.length_cons]
      rcases List.infix_cons_iff.mp h with h | h
      · exact absurd h hpre
      · have := ih h
        omega

/-! ## Runs of separators -/

/-- Two separators in a row. -/
def twoSlashes : Str := [slash, slash]

/-- Every maximal run of separators is replaced by one separator. -/
def squeeze : Str → Str
  | [] => []
  | c :: cs => if c = slash ∧ cs.head? = some slash then squeeze cs else c :: squeeze cs

theorem squeeze_slash_slash (s : Str) : squeeze (slash :: slash :: s) = squeeze (slash :: s) := by
  rw [squeeze, if_pos ⟨rfl, rfl⟩]

theorem squeeze_cons {c : UInt8} {s : Str} (h : ¬ (c = slash ∧ s.head? = some slash)) :
    squeeze (c :: s) = c :: squeeze s := by
  rw [squeeze, if_neg h]

theorem head?_squeeze (s : Str) : (squeeze s).head? = s.head? := by
  induction s with
  | nil => rfl
  | cons c cs ih =>
    by_cases h : c = slash ∧ cs.head? = some slash
    · rw [squeeze, if_pos h, ih, h.2, h.1]
      rfl
    · rw [squeeze_cons h]
      rfl

theorem squeeze_cons_congr {s t : Str} (h : squeeze s = squeeze t) (c : UInt8) :
    squeeze (c :: s) = squeeze (c :: t) := by
  have hhead : s.head? = t.head? := by rw [← head?_squeeze s, h, head?_squeeze]
  simp only [squeeze, hhead, h]

theorem squeeze_of_not_mem_append {a : Str} (h : slash ∉ a) (s : Str) :
    squeeze (a ++ s) = a ++ squeeze s := by
  induction a with
  | nil => rfl
  | cons c cs ih =>
    simp only [List.mem_cons, not_or] at h
    rw [List.cons_append, squeeze_cons fun hc => h.1 hc.1.symm, ih h.2]
    rfl

theorem squeeze_sublist (s : Str) : (squeeze s).Sublist s := by
  induction s with
  | nil => exact List.Sublist.refl _
  | cons c cs ih =>
    rw [squeeze]
    split
    · exact ih.cons c
    · exact ih.cons_cons c

theorem squeeze_eq_self_iff {s : Str} : squeeze s = s ↔ ¬ twoSlashes <:+: s := by
  induction s with
  | nil => simp [squeeze, twoSlashes]
  | cons c cs ih =>
    have htwo : twoSlashes <:+: c :: cs ↔
        (c = slash ∧ cs.head? = some slash) ∨ twoSlashes <:+: cs := by
      rw [List.infix_cons_iff]
      refine or_congr ?_ Iff.rfl
      cases cs with
      | nil => simp [twoSlashes, List.cons_prefix_cons]
      | cons d ds =>
        simp only [twoSlashes, List.cons_prefix_cons, List.nil_prefix, and_true,
          List.head?_cons, Option.some.injEq]
        exact and_congr eq_comm eq_comm
    rw [htwo, not_or, ← ih]
    by_cases h : c = slash ∧ cs.head? = some slash
    · rw [squeeze, if_pos h]
      refine iff_of_false (fun he => ?_) fun hn => hn.1 h
      have hlen := (squeeze_sublist cs).length_le
      rw [he, List.length_cons] at hlen
      omega
    · rw [squeeze_cons h]
      simp [h]

theorem squeeze_idem (s : Str) : squeeze (squeeze s) = squeeze s := by
  induction s with
  | nil => rfl
  | cons c cs ih =>
    by_cases h : c = slash ∧ cs.head? = some slash
    · rw [squeeze, if_pos h, ih]
    · rw [squeeze_cons h, squeeze_cons (by rwa [head?_squeeze]), ih]

theorem not_twoSlashes_squeeze (s : Str) : ¬ twoSlashes <:+: squeeze s :=
  squeeze_eq_self_iff.mp (squeeze_idem s)

theorem squeeze_eq_self_of_not_mem {s : Str} (h : slash ∉ squeeze s) : squeeze s = s := by
  induction s with
  | nil => rfl
  | cons c cs ih =>
    by_cases hc : c = slash ∧ cs.head? = some slash
    · rw [squeeze, if_pos hc] at h
      refine absurd (List.mem_of_mem_head? ?_) h
      rw [head?_squeeze, hc.2]
      rfl
    · rw [squeeze_cons hc] at h ⊢
      rw [ih fun hmem => h (List.mem_cons_of_mem c hmem)]

/-- What follows the last separator is not changed. -/
theorem suffix_of_squeeze {w s : Str} (hw : slash ∉ w) (h : w <:+ squeeze s) : w <:+ s := by
  induction s with
  | nil => exact h
  | cons c cs ih =>
    by_cases hc : c = slash ∧ cs.head? = some slash
    · rw [squeeze, if_pos hc] at h
      exact (ih h).trans (List.suffix_cons c cs)
    · rw [squeeze_cons hc] at h
      rcases List.suffix_cons_iff.mp h with rfl | h
      · rw [squeeze_eq_self_of_not_mem fun hmem => hw (List.mem_cons_of_mem c hmem)]
      · exact (ih h).trans (List.suffix_cons c cs)

/-- The maximal runs of separators of a string, and all other bytes one by one. -/
def slashRuns (s : Str) : List Str := s.splitBy fun c d => c = slash ∧ d = slash

theorem squeeze_run {c : UInt8} {g : Str}
    (hg : (c :: g).IsChain fun c d => decide (c = slash ∧ d = slash) = true) {s : Str}
    (hs : ¬ ((c :: g).getLast (List.cons_ne_nil c g) = slash ∧ s.head? = some slash)) :
    squeeze (c :: g ++ s) = c :: squeeze s := by
  induction g generalizing c with
  | nil => exact squeeze_cons hs
  | cons d g ih =>
    obtain ⟨hcd, hrest⟩ := List.isChain_cons_cons.mp hg
    obtain ⟨rfl, rfl⟩ := of_decide_eq_true hcd
    rw [List.cons_append, List.cons_append, squeeze_slash_slash]
    exact ih hrest hs

/-- Squeezing keeps one byte of each run. -/
theorem squeeze_eq_runs (s : Str) : squeeze s = (slashRuns s).flatMap (List.take 1) := by
  obtain ⟨hflat, hne, hchain, hbounds⟩ := List.splitBy_eq_iff.mp (rfl : slashRuns s = slashRuns s)
  generalize slashRuns s = runs at hflat hne hchain hbounds ⊢
  subst hflat
  -- run by run; the next byte after a run of separators is another one
  induction runs with
  | nil => rfl
  | cons run runs ih =>
    obtain ⟨c, g, rfl⟩ := List.exists_cons_of_ne_nil fun he => hne (he ▸ List.mem_cons_self)
    have hnext : ¬ ((c :: g).getLast (List.cons_ne_nil c g) = slash ∧
        runs.flatten.head? = some slash) := by
      cases runs with
      | nil => simp
      | cons run' runs =>
        obtain ⟨d, g', rfl⟩ := List.exists_cons_of_ne_nil (l := run')
          fun he => hne (he ▸ List.mem_cons_of_mem _ List.mem_cons_self)
        obtain ⟨_, _, hr⟩ := (List.isChain_cons_cons.mp hbounds).1
        exact fun ⟨hlast, hhead⟩ => of_decide_eq_false hr ⟨hlast, by simpa using hhead⟩
    rw [List.flatten_cons, squeeze_run (hchain _ List.mem_cons_self) hnext, List.flatMap_cons,
      ih (fun h => hne (List.mem_cons_of_mem _ h))
        (fun m hm => hchain m (List.mem_cons_of_mem _ hm)) hbounds.tail]
    rfl

/-- Replacing pairs of separators changes nothing up to squeezing. -/
theorem squeeze_replaceAll (s : Str) : squeeze (replaceAll s twoSlashes [slash]) = squeeze s := by
  generalize hn : s.length = n
  induction n using Nat.strongRecOn generalizing s with
  | ind n ih =>
    by_cases hpre : twoSlashes <+: s
    · obtain ⟨t, rfl⟩ := hpre
      simp only [twoSlashes, List.length_append, List.length_cons, List.length_nil] at hn
      rw [replaceAll_hit (by decide)]
      exact (squeeze_cons_congr (ih t.length (by omega) t rfl) slash).trans
        (squeeze_slash_slash t).symm
    · cases s with
      | nil => rfl
      | cons c cs =>
        rw [List.length_cons] at hn
        rw [replaceAll_miss hpre]
        exact squeeze_cons_congr (ih cs.length (by omega) cs rfl) c

/-! ## Trimming a set of words -/

/-- Remove one word of `ws` from the front, if there is one. -/
def stripWord (ws : List Str) (s : Str) : Option Str :=
  (ws.find? fun w => w.isPrefixOf s).map fun w => s.drop w.length

/-- Remove words of `ws` from the front; the words are not empty, so at most
`s.length` of them are removed. -/
def trimLeftN (ws : List Str) : Nat → Str → Str
  | 0, s => s
  | n + 1, s =>
      match stripWord ws s with
      | none => s
      | some rest => trimLeftN ws n rest

def trimLeft (ws : List Str) (s : Str) : Str := trimLeftN ws s.length s

def trimRight (ws : List Str) (s : Str) : Str :=
  (trimLeft (ws.map List.reverse) s.reverse).reverse

theorem stripWord_none {ws : List Str} {s : Str} :
    stripWord ws s = none ↔ ∀ w ∈ ws, ¬ w <+: s := by
  simp [stripWord, List.isPrefixOf_iff_prefix]

theorem stripWord_some {ws : List Str} {s rest : Str} (h : stripWord ws s = some rest) :
    ∃ w ∈ ws, s = w ++ rest := by
  unfold stripWord at h
  obtain ⟨w, hfind, rfl⟩ := Option.map_eq_some_iff.mp h
  have hpre : w <+: s := List.isPrefixOf_iff_prefix.mp (by simpa using List.find?_some hfind)
  refine ⟨w, List.mem_of_find?_eq_some hfind, ?_⟩
  obtain ⟨t, rfl⟩ := hpre
  simp

/-- What is removed is a sequence of words, and no further word can be removed when
the bound is large enough. -/
theorem trimLeftN_spec {ws : List Str} (hne : ∀ w ∈ ws, w ≠ []) (n : Nat) (s : Str)
    (hn : s.length ≤ n) :
    ∃ l : List Str, (∀ w ∈ l, w ∈ ws) ∧ s = l.flatten ++ trimLeftN ws n s ∧
      ∀ w ∈ ws, ¬ w <+: trimLeftN ws n s := by
  induction n generalizing s with
  | zero =>
    obtain rfl : s = [] := List.length_eq_zero_iff.mp (by omega)
    refine ⟨[], by simp, by simp [trimLeftN], ?_⟩
    intro w hw hpre
    exact hne w hw (List.prefix_nil.mp hpre)
  | succ n ih =>
    unfold trimLeftN
    cases h : stripWord ws s with
    | none => exact ⟨[], by simp, by simp, stripWord_none.mp h⟩
    | some rest =>
      obtain ⟨w, hw, rfl⟩ := stripWord_some h
      have hpos : 0 < w.length := List.length_pos_iff.mpr (hne w hw)
      simp only [List.length_append] at hn
      obtain ⟨l, hl, heq, hstop⟩ := ih rest (by omega)
      refine ⟨w :: l, ?_, ?_, hstop⟩
      · intro v hv
        rcases List.mem_cons.mp hv with rfl | hv
        · exact hw
        · exact hl v hv
      · rw [List.flatten_cons, List.append_assoc, ← heq]

theorem trimLeft_spec {ws : List Str} (hne : ∀ w ∈ ws, w ≠ []) (s : Str) :
    ∃ l : List Str, (∀ w ∈ l, w ∈ ws) ∧ s = l.flatten ++ trimLeft ws s ∧
      ∀ w ∈ ws, ¬ w <+: trimLeft ws s :=
  trimLeftN_spec hne s.length s le_rfl

theorem trimLeft_eq_self {ws : List Str} {s : Str} (h : ∀ w ∈ ws, ¬ w <+: s) :
    trimLeft ws s = s := by
  unfold trimLeft
  cases s.length with
  | zero => rfl
  | succ n => simp only [trimLeftN, stripWord_none.mpr h]

/-- No word is a proper prefix of another one. -/
def PrefixFree (ws : List Str) : Prop := ∀ w ∈ ws, ∀ v ∈ ws, w <+: v → w = v

theorem stripWord_append {ws : List Str} (hfree : PrefixFree ws) {w : Str} (hw : w ∈ ws)
    (s : Str) : stripWord ws (w ++ s) = some s := by
  cases h : stripWord ws (w ++ s) with
  | none => exact absurd (List.prefix_append w s) (stripWord_none.mp h w hw)
  | some rest =>
    obtain ⟨v, hv, heq⟩ := stripWord_some h
    have hwv : w = v := by
      rcases List.prefix_or_prefix_of_prefix (List.prefix_append w s)
        (heq ▸ List.prefix_append v rest) with hpre | hpre
      · exact hfree w hw v hv hpre
      · exact (hfree v hv w hw hpre).symm
    rw [hwv] at heq
    rw [List.append_cancel_left heq]

theorem trimLeftN_words {ws : List Str} (hne : ∀ w ∈ ws, w ≠ []) (hfree : PrefixFree ws)
    {s : Str} (hs : ∀ w ∈ ws, ¬ w <+: s) :
    ∀ (l : List Str) (n : Nat), (∀ w ∈ l, w ∈ ws) → (l.flatten ++ s).length ≤ n →
      trimLeftN ws n (l.flatten ++ s) = s
  | [], 0, _, _ => rfl
  | [], n + 1, _, _ => by
    simp only [List.flatten_nil, List.nil_append, trimLeftN, stripWord_none.mpr hs]
  | w :: l, n, hl, hn => by
    obtain ⟨hw, hl⟩ := List.forall_mem_cons.mp hl
    have hpos := List.length_pos_iff.mpr (hne w hw)
    rw [List.flatten_cons, List.append_assoc] at hn ⊢
    rw [List.length_append] at hn
    obtain ⟨m, rfl⟩ := Nat.exists_eq_succ_of_ne_zero (by omega : n ≠ 0)
    simp only [trimLeftN, stripWord_append hfree hw]
    exact trimLeftN_words hne hfree hs l m hl (by omega)

/-- All the words in front are removed, and what begins with no word stays. -/
theorem trimLeft_words {ws : List Str} (hne : ∀ w ∈ ws, w ≠ []) (hfree : PrefixFree ws)
    {l : List Str} (hl : ∀ w ∈ l, w ∈ ws) {s : Str} (hs : ∀ w ∈ ws, ¬ w <+: s) :
    trimLeft ws (l.flatten ++ s) = s :=
  trimLeftN_words hne hfree hs l _ hl le_rfl

theorem reversed_ne_nil {ws : List Str} (hne : ∀ w ∈ ws, w ≠ []) :
    ∀ w ∈ ws.map List.reverse, w ≠ [] := by
  intro w hw
  obtain ⟨v, hv, rfl⟩ := List.mem_map.mp hw
  simpa using hne v hv

theorem not_prefix_reverse {ws : List Str} {s : Str} (h : ∀ w ∈ ws, ¬ w <:+ s) :
    ∀ w ∈ ws.map List.reverse, ¬ w <+: s.reverse := by
  intro w hw hpre
  obtain ⟨v, hv, rfl⟩ := List.mem_map.mp hw
  exact h v hv (List.reverse_prefix.mp hpre)

theorem trimRight_spec {ws : List Str} (hne : ∀ w ∈ ws, w ≠ []) (s : Str) :
    ∃ l : List Str, (∀ w ∈ l, w ∈ ws) ∧ s = trimRight ws s ++ l.flatten ∧
      ∀ w ∈ ws, ¬ w <:+ trimRight ws s := by
  obtain ⟨l, hl, heq, hstop⟩ := trimLeft_spec (reversed_ne_nil hne) s.reverse
  refine ⟨(l.map List.reverse).reverse, ?_, ?_, ?_⟩
  · intro w hw
    obtain ⟨v, hv, rfl⟩ := List.mem_map.mp (List.mem_reverse.mp hw)
    obtain ⟨u, hu, rfl⟩ := List.mem_map.mp (hl v hv)
    simpa using hu
  · rw [← List.reverse_flatten, trimRight, ← List.reverse_append, ← heq, List.reverse_reverse]
  · intro w hw hsuf
    refine hstop w.reverse (List.mem_map.mpr ⟨w, hw, rfl⟩) ?_
    rwa [trimRight, ← List.reverse_prefix, List.reverse_reverse] at hsuf

theorem trimRight_eq_self {ws : List Str} {s : Str} (h : ∀ w ∈ ws, ¬ w <:+ s) :
    trimRight ws s = s := by
  unfold trimRight
  rw [trimLeft_eq_self (not_prefix_reverse h), List.reverse_reverse]

/-- All the words at the end are removed, and what ends with no word stays. -/
theorem trimRight_words {ws : List Str} (hne : ∀ w ∈ ws, w ≠ [])
    (hfree : PrefixFree (ws.map List.reverse)) {l : List Str} (hl : ∀ w ∈ l, w ∈ ws) {s : Str}
    (hs : ∀ w ∈ ws, ¬ w <:+ s) : trimRight ws (s ++ l.flatten) = s := by
  have hl' : ∀ w ∈ (l.map List.reverse).reverse, w ∈ ws.map List.reverse := by
    intro w hw
    obtain ⟨v, hv, rfl⟩ := List.mem_map.mp (List.mem_reverse.mp hw)
    exact List.mem_map_of_mem (hl v hv)
  unfold trimRight
  rw [List.reverse_append, List.reverse_flatten,
    trimLeft_words (reversed_ne_nil hne) hfree hl' (not_prefix_reverse hs), List.reverse_reverse]

/-! ## Hexadecimal digits -/

/-- The lower-case digit of a number below 16. -/
def hexDigit (n : Nat) : UInt8 := UInt8.ofNat (if n < 10 then 48 + n else 87 + n)

def hexValue (b : UInt8) : Option Nat :=
  if 48 ≤ b ∧ b ≤ 57 then some (b.toNat - 48)
  else if 97 ≤ b ∧ b ≤ 102 then some (b.toNat - 87)
  else if 65 ≤ b ∧ b ≤ 70 then some (b.toNat - 55)
  else none

/-- `hex.EncodeToString`: two digits for each byte. -/
def hexEncode (bytes : Str) : Str :=
  bytes.flatMap fun c => [hexDigit (c.toNat / 16), hexDigit (c.toNat % 16)]

theorem hexValue_hexDigit : ∀ n < 16, hexValue (hexDigit n) = some n := by
  decide +kernel

theorem le_hexDigit : ∀ n < 16, 48 ≤ hexDigit n := by
  decide +kernel

theorem le_of_mem_hexEncode {bytes : Str} {c : UInt8} (h : c ∈ hexEncode bytes) : 48 ≤ c := by
  obtain ⟨d, _, hc⟩ := List.mem_flatMap.mp h
  have hd := d.toNat_lt
  rcases List.mem_cons.mp hc with rfl | hc
  · exact le_hexDigit _ (by omega)
  · rw [List.mem_singleton.mp hc]
    exact le_hexDigit _ (by omega)

example : hexEncode [0, 171] = str "00ab" := by decide

/-! ## White space -/

/-- The encodings of the runes with the Unicode property `White_Space`: U+0009 to
U+000D, U+0020, U+0085, U+00A0, U+1680, U+2000 to U+200A, U+2028, U+2029, U+202F,
U+205F and U+3000. -/
def spaceRunes : List Str :=
  [[0x09], [0x0A], [0x0B], [0x0C], [0x0D], [0x20], [0xC2, 0x85], [0xC2, 0xA0],
    [0xE1, 0x9A, 0x80], [0xE2, 0x80, 0x80], [0xE2, 0x80, 0x81], [0xE2, 0x80, 0x82],
    [0xE2, 0x80, 0x83], [0xE2, 0x80, 0x84], [0xE2, 0x80, 0x85], [0xE2, 0x80, 0x86],
    [0xE2, 0x80, 0x87], [0xE2, 0x80, 0x88], [0xE2, 0x80, 0x89], [0xE2, 0x80, 0x8A],
    [0xE2, 0x80, 0xA8], [0xE2, 0x80, 0xA9], [0xE2, 0x80, 0xAF], [0xE2, 0x81, 0x9F],
    [0xE3, 0x80, 0x80]]

def trimSpace (s : Str) : Str := trimRight spaceRunes (trimLeft spaceRunes s)

theorem spaceRunes_ne_nil : ∀ w ∈ spaceRunes, w ≠ [] := by decide

theorem slash_not_mem_spaceRunes : ∀ w ∈ spaceRunes, slash ∉ w := by decide

theorem slash_not_mem_flatten {l : List Str} (hl : ∀ w ∈ l, w ∈ spaceRunes) :
    slash ∉ l.flatten := by
  intro h
  obtain ⟨w, hw, hs⟩ := List.mem_flatten.mp h
  exact slash_not_mem_spaceRunes w (hl w hw) hs

/-- Neither end of `s` carries white space. -/
def Unpadded (s : Str) : Prop := ∀ w ∈ spaceRunes, ¬ w <+: s ∧ ¬ w <:+ s

/-- `trimSpace` cuts white space, and nothing else, from both ends. -/
theorem trimSpace_spec (s : Str) :
    ∃ pre suf : Str, s = pre ++ trimSpace s ++ suf ∧ slash ∉ pre ∧ slash ∉ suf ∧
      Unpadded (trimSpace s) := by
  obtain ⟨l, hl, heq, hleft⟩ := trimLeft_spec spaceRunes_ne_nil s
  obtain ⟨r, hr, heq', hright⟩ := trimRight_spec spaceRunes_ne_nil (trimLeft spaceRunes s)
  refine ⟨l.flatten, r.flatten, ?_, slash_not_mem_flatten hl, slash_not_mem_flatten hr, ?_⟩
  · unfold trimSpace
    rw [List.append_assoc, ← heq', ← heq]
  · intro w hw
    refine ⟨fun hpre => hleft w hw (hpre.trans ?_), hright w hw⟩
    unfold trimSpace
    nth_rewrite 2 [heq']
    exact List.prefix_append _ _

theorem trimSpace_eq_self_iff {s : Str} : trimSpace s = s ↔ Unpadded s := by
  constructor
  · intro h
    obtain ⟨_, _, _, _, _, hu⟩ := trimSpace_spec s
    rwa [h] at hu
  · intro h
    unfold trimSpace
    rw [trimLeft_eq_self fun w hw => (h w hw).1, trimRight_eq_self fun w hw => (h w hw).2]

theorem spaceRunes_prefixFree : PrefixFree spaceRunes := by
  unfold PrefixFree
  decide +kernel

theorem spaceRunes_suffixFree : PrefixFree (spaceRunes.map List.reverse) := by
  unfold PrefixFree
  decide +kernel

/-- The front of an encoding never stands at the end of one, nor the other way round. -/
theorem spaceRunes_overlap : ∀ w ∈ spaceRunes, ∀ v ∈ spaceRunes, ∀ i < w.length, 0 < i →
    ¬ w.take i <:+ v ∧ ¬ v <:+ w.take i := by
  decide +kernel

/-- A run of white space. -/
def White (s : Str) : Prop := ∃ l : List Str, (∀ w ∈ l, w ∈ spaceRunes) ∧ s = l.flatten

theorem white_nil : White [] := ⟨[], by simp, rfl⟩

theorem white_cons {w s : Str} (hw : w ∈ spaceRunes) (hs : White s) : White (w ++ s) := by
  obtain ⟨l, hl, rfl⟩ := hs
  exact ⟨w :: l, List.forall_mem_cons.mpr ⟨hw, hl⟩, rfl⟩

theorem trimSpace_padded {s before after : Str} (hb : White before) (ha : White after)
    (hleft : ∀ w ∈ spaceRunes, ¬ w <+: s ++ after) (hright : ∀ w ∈ spaceRunes, ¬ w <:+ s) :
    trimSpace (before ++ s ++ after) = s := by
  obtain ⟨l, hl, rfl⟩ := hb
  obtain ⟨r, hr, rfl⟩ := ha
  unfold trimSpace
  rw [List.append_assoc, trimLeft_words spaceRunes_ne_nil spaceRunes_prefixFree hl hleft,
    trimRight_words spaceRunes_ne_nil spaceRunes_suffixFree hr hright]

/-- White space in front of `t` makes no new white space at its end, also where `t` is not
valid UTF-8: an encoding that begins in front of `t` would overlap the last one there. -/
theorem not_suffix_white {u s t : Str} (hs : White s) (hne : s ≠ []) (ht : t ≠ [])
    (hright : ∀ w ∈ spaceRunes, ¬ w <:+ t) : ∀ w ∈ spaceRunes, ¬ w <:+ u ++ s ++ t := by
  intro w hw hsuf
  obtain ⟨l, hl, rfl⟩ := hs
  rcases List.suffix_or_suffix_of_suffix hsuf (List.suffix_append _ t) with hin | ⟨front, rfl⟩
  · exact hright w hw hin
  · have hfront : front ≠ [] := fun h => hright _ hw (by rw [h, List.nil_append])
    obtain ⟨x, hx⟩ := hsuf
    rw [← List.append_assoc] at hx
    have hend : front <:+ u ++ l.flatten := ⟨x, List.append_cancel_right hx⟩
    obtain ⟨l', v, rfl⟩ := (List.eq_nil_or_concat' l).resolve_left fun h => hne (by rw [h]; rfl)
    have hv : v ∈ spaceRunes := hl v (by simp)
    have hflat : u ++ (l' ++ [v]).flatten = (u ++ l'.flatten) ++ v := by
      rw [List.flatten_concat, List.append_assoc]
    have hcut := spaceRunes_overlap _ hw v hv front.length
      (by rw [List.length_append]; exact Nat.lt_add_of_pos_right (List.length_pos_iff.mpr ht))
      (List.length_pos_iff.mpr hfront)
    rw [List.take_left] at hcut
    rw [hflat] at hend
    rcases List.suffix_or_suffix_of_suffix hend (List.suffix_append _ v) with hover | hover
    · exact hcut.1 hover
    · exact hcut.2 hover

/-- A rooted string loses nothing at its front. -/
theorem trimSpace_rooted (s : Str) :
    ∃ suf, slash :: s = trimSpace (slash :: s) ++ suf ∧ slash ∉ suf := by
  obtain ⟨pre, suf, heq, hpre, hsuf, _⟩ := trimSpace_spec (slash :: s)
  refine ⟨suf, ?_, hsuf⟩
  cases pre with
  | nil => simpa using heq
  | cons c cs =>
    simp only [List.cons_append, List.cons.injEq] at heq
    rw [← heq.1] at hpre
    simp at hpre

example : trimSpace (str " \t/a b ") = str "/a b" := by decide

end FileEngine.Go
