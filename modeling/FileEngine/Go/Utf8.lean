import FileEngine.Go.Strings

/-!
# Runes and `strings.ToLower`

Go reads a string as runes where a function says so; a byte that starts no valid
encoding counts as one rune `runeError` of width one. `toLower` maps ASCII strings byte
by byte and every other string rune by rune. The case table of Unicode is a parameter;
`LowersAscii` says what is needed of it: it lowers ASCII letters as expected, and the
only other runes that it takes to ASCII are the dotted capital I and the Kelvin sign.

For one ASCII word less is needed (`LowersWord`): no other rune is taken to a letter of
the word. `hasPrefix_toLower_iff`: a lower-cased string starts with the word exactly if the
string itself starts with that word in some spelling. In particular the word is no longer
than the string, although lower-casing may change the length, and it ends between two runes
(`runeBoundary_ascii`), although the string need not be valid UTF-8.
-/

namespace FileEngine.Go

def runeError : Nat := 0xFFFD

/-- The width that a first byte announces, and the bounds of the second byte. -/
def lead (b : Nat) : Option (Nat × Nat × Nat) :=
  if 0xC2 ≤ b ∧ b ≤ 0xDF then some (2, 0x80, 0xBF)
  else if b = 0xE0 then some (3, 0xA0, 0xBF)
  else if b = 0xED then some (3, 0x80, 0x9F)
  else if 0xE1 ≤ b ∧ b ≤ 0xEF then some (3, 0x80, 0xBF)
  else if b = 0xF0 then some (4, 0x90, 0xBF)
  else if b = 0xF4 then some (4, 0x80, 0x8F)
  else if 0xF1 ≤ b ∧ b ≤ 0xF3 then some (4, 0x80, 0xBF)
  else none

/-- The first rune of a string and its width. -/
def decodeRune : Str → Nat × Nat
  | [] => (runeError, 0)
  | b :: bs =>
      let b0 := b.toNat
      if b0 < 0x80 then (b0, 1)
      else
        match lead b0, bs.map UInt8.toNat with
        | some (2, lo, hi), b1 :: _ =>
            if lo ≤ b1 ∧ b1 ≤ hi then (b0 % 32 * 64 + b1 % 64, 2) else (runeError, 1)
        | some (3, lo, hi), b1 :: b2 :: _ =>
            if (lo ≤ b1 ∧ b1 ≤ hi) ∧ (0x80 ≤ b2 ∧ b2 ≤ 0xBF) then
              ((b0 % 16 * 64 + b1 % 64) * 64 + b2 % 64, 3)
            else (runeError, 1)
        | some (4, lo, hi), b1 :: b2 :: b3 :: _ =>
            if (lo ≤ b1 ∧ b1 ≤ hi) ∧ (0x80 ≤ b2 ∧ b2 ≤ 0xBF) ∧ (0x80 ≤ b3 ∧ b3 ≤ 0xBF) then
              (((b0 % 8 * 64 + b1 % 64) * 64 + b2 % 64) * 64 + b3 % 64, 4)
            else (runeError, 1)
        | _, _ => (runeError, 1)

def encodeRune (r : Nat) : Str :=
  let tail (n : Nat) : UInt8 := UInt8.ofNat (0x80 + n % 64)
  let three (r : Nat) : Str := [UInt8.ofNat (0xE0 + r / 4096), tail (r / 64), tail r]
  if r < 0x80 then [UInt8.ofNat r]
  else if r < 0x800 then [UInt8.ofNat (0xC0 + r / 64), tail r]
  else if (0xD800 ≤ r ∧ r ≤ 0xDFFF) ∨ 0x10FFFF < r then three runeError
  else if r < 0x10000 then three r
  else [UInt8.ofNat (0xF0 + r / 262144), tail (r / 4096), tail (r / 64), tail r]

/-- The runes of a string; `skip` bytes still belong to the rune before. -/
def runesFrom : (skip : Nat) → Str → List Nat
  | _, [] => []
  | 0, b :: bs => (decodeRune (b :: bs)).1 :: runesFrom ((decodeRune (b :: bs)).2 - 1) bs
  | skip + 1, _ :: bs => runesFrom skip bs

def runes (s : Str) : List Nat := runesFrom 0 s

def lowerByte (b : UInt8) : UInt8 := if 65 ≤ b ∧ b ≤ 90 then b + 32 else b

/-- `strings.ToLower`, over the table `lower` of `unicode.ToLower`. -/
def toLower (lower : Nat → Nat) (s : Str) : Str :=
  if s.all (· < 0x80) then s.map lowerByte
  else (runes s).flatMap fun r => encodeRune (lower r)

/-- What is assumed of the case table. -/
structure LowersAscii (lower : Nat → Nat) : Prop where
  ascii : ∀ b : UInt8, b.toNat < 0x80 → lower b.toNat = (lowerByte b).toNat
  other : ∀ r, 0x80 ≤ r → lower r < 0x80 → lower r = 105 ∨ lower r = 107

/-- What is needed of the case table for one word. -/
structure LowersWord (lower : Nat → Nat) (w : Str) : Prop where
  ascii : ∀ b : UInt8, b.toNat < 0x80 → lower b.toNat = (lowerByte b).toNat
  other : ∀ r, 0x80 ≤ r → ∀ c ∈ w, lower r ≠ c.toNat

/-- Offset `i` of a string is where a rune starts, or the end of the string; `skip` bytes
still belong to the rune before. -/
def runeBoundaryFrom : (skip : Nat) → Str → (i : Nat) → Prop
  | skip, _, 0 => skip = 0
  | _, [], _ + 1 => False
  | 0, b :: bs, i + 1 => runeBoundaryFrom ((decodeRune (b :: bs)).2 - 1) bs i
  | skip + 1, _ :: bs, i + 1 => runeBoundaryFrom skip bs i

def RuneBoundary (s : Str) (i : Nat) : Prop := runeBoundaryFrom 0 s i

/-! ## Lower-casing and ASCII words -/

theorem decodeRune_ascii {b : UInt8} (h : b.toNat < 0x80) (bs : Str) :
    decodeRune (b :: bs) = (b.toNat, 1) := by
  simp [decodeRune, h]

/-- A first byte outside ASCII never decodes to an ASCII rune: overlong encodings are
rejected by the bounds of the second byte. -/
theorem decodeRune_not_ascii {b : UInt8} (h : ¬ b.toNat < 0x80) (bs : Str) :
    0x80 ≤ (decodeRune (b :: bs)).1 := by
  have hlead : ∀ w lo hi, lead b.toNat = some (w, lo, hi) →
      hi ≤ 0xBF ∧ ((w = 2 ∧ 2 ≤ b.toNat % 32) ∨ (w = 3 ∧ (1 ≤ b.toNat % 16 ∨ lo = 0xA0)) ∨
        (w = 4 ∧ (1 ≤ b.toNat % 8 ∨ lo = 0x90))) := by
    intro w lo hi hw
    unfold lead at hw
    split_ifs at hw <;> simp only [Option.some.injEq, Prod.mk.injEq] at hw <;> omega
  simp only [decodeRune, if_neg h]
  split
  · rename_i lo hi b1 _ hl _
    have := hlead _ _ _ hl
    split_ifs
    · show 0x80 ≤ b.toNat % 32 * 64 + b1 % 64
      omega
    · decide
  · rename_i lo hi b1 b2 _ hl _
    have := hlead _ _ _ hl
    split_ifs
    · show 0x80 ≤ (b.toNat % 16 * 64 + b1 % 64) * 64 + b2 % 64
      omega
    · decide
  · rename_i lo hi b1 b2 b3 _ hl _
    have := hlead _ _ _ hl
    split_ifs
    · show 0x80 ≤ ((b.toNat % 8 * 64 + b1 % 64) * 64 + b2 % 64) * 64 + b3 % 64
      omega
    · decide
  · decide

theorem head_encodeRune {r : Nat} (h : 0x80 ≤ r) :
    ∃ c cs, encodeRune r = c :: cs ∧ 0x80 ≤ c.toNat := by
  unfold encodeRune
  simp only [if_neg (Nat.not_lt.mpr h)]
  split_ifs with h2 h3 h4
  · refine ⟨_, _, rfl, ?_⟩
    rw [UInt8.toNat_ofNat']
    omega
  · exact ⟨_, _, rfl, by decide⟩
  · refine ⟨_, _, rfl, ?_⟩
    rw [UInt8.toNat_ofNat']
    omega
  · refine ⟨_, _, rfl, ?_⟩
    rw [UInt8.toNat_ofNat']
    omega

/-- The word is ASCII and has none of the letters that other runes lower to. -/
def PlainWord (w : Str) : Prop := ∀ c ∈ w, c.toNat < 0x80 ∧ c.toNat ≠ 105 ∧ c.toNat ≠ 107

theorem LowersAscii.lowersWord {lower : Nat → Nat} (h : LowersAscii lower) {w : Str}
    (hw : PlainWord w) : LowersWord lower w := by
  refine ⟨h.ascii, fun r hr c hc heq => ?_⟩
  obtain ⟨hascii, hi, hk⟩ := hw c hc
  rcases h.other r hr (heq ▸ hascii) with hlow | hlow
  · exact hi (heq ▸ hlow)
  · exact hk (heq ▸ hlow)

theorem LowersWord.tail {lower : Nat → Nat} {c : UInt8} {w : Str}
    (h : LowersWord lower (c :: w)) : LowersWord lower w :=
  ⟨h.ascii, fun r hr d hd => h.other r hr d (List.mem_cons_of_mem c hd)⟩

/-- Lower-casing a byte keeps it on its side of ASCII. -/
theorem lowerByte_ascii {b : UInt8} : (lowerByte b).toNat < 0x80 ↔ b.toNat < 0x80 := by
  unfold lowerByte
  split_ifs with hup
  · have hle := UInt8.le_iff_toNat_le.mp hup.2
    rw [UInt8.toNat_add]
    simp only [UInt8.reduceToNat] at hle ⊢
    omega
  · rfl

theorem encodeRune_lower_ascii {lower : Nat → Nat} {w : Str} (hlower : LowersWord lower w)
    {b : UInt8} (hb : b.toNat < 0x80) : encodeRune (lower b.toNat) = [lowerByte b] := by
  simp [hlower.ascii b hb, encodeRune, lowerByte_ascii.mpr hb]

theorem lowered_prefix {lower : Nat → Nat} {w : Str} (hlower : LowersWord lower w)
    (hw : ∀ c ∈ w, c.toNat < 0x80) {s : Str}
    (h : w <+: (runesFrom 0 s).flatMap fun r => encodeRune (lower r)) :
    ∃ v t, s = v ++ t ∧ v.map lowerByte = w := by
  induction w generalizing s with
  | nil => exact ⟨[], s, rfl, rfl⟩
  | cons c w ih =>
    obtain ⟨hc, hc'⟩ := List.forall_mem_cons.mp hw
    cases s with
    | nil => simp [runesFrom] at h
    | cons b bs =>
      simp only [runesFrom, List.flatMap_cons] at h
      by_cases hb : b.toNat < 0x80
      · rw [decodeRune_ascii hb, encodeRune_lower_ascii hlower hb] at h
        obtain ⟨rfl, hrest⟩ := List.cons_prefix_cons.mp h
        obtain ⟨v, t, rfl, hv⟩ := ih hlower.tail hc' hrest
        exact ⟨b :: v, t, rfl, by simp [hv]⟩
      · -- the rune is outside ASCII, and so is the first byte of what it is mapped to
        have hr := decodeRune_not_ascii hb bs
        exfalso
        by_cases hlow : lower (decodeRune (b :: bs)).1 < 0x80
        · have hencode : encodeRune (lower (decodeRune (b :: bs)).1) =
              [UInt8.ofNat (lower (decodeRune (b :: bs)).1)] := by
            simp [encodeRune, hlow]
          rw [hencode] at h
          obtain ⟨hc, _⟩ := List.cons_prefix_cons.mp h
          refine hlower.other _ hr c (List.mem_cons_self ..) ?_
          rw [hc, UInt8.toNat_ofNat', Nat.mod_eq_of_lt (by omega)]
        · obtain ⟨d, ds, hd, hge⟩ := head_encodeRune (Nat.not_lt.mp hlow)
          rw [hd] at h
          obtain ⟨rfl, _⟩ := List.cons_prefix_cons.mp h
          omega

/-- ASCII bytes in front are runes of their own. -/
theorem runes_append_ascii {v : Str} (hv : ∀ b ∈ v, b.toNat < 0x80) (t : Str) :
    runes (v ++ t) = v.map UInt8.toNat ++ runes t := by
  induction v with
  | nil => rfl
  | cons b v ih =>
    obtain ⟨hb, hv⟩ := List.forall_mem_cons.mp hv
    rw [List.cons_append, runes, runesFrom, decodeRune_ascii hb]
    exact congrArg (b.toNat :: ·) (ih hv)

theorem runeBoundary_ascii {v : Str} (hv : ∀ b ∈ v, b.toNat < 0x80) (t : Str) :
    RuneBoundary (v ++ t) v.length := by
  induction v with
  | nil => rfl
  | cons b v ih =>
    obtain ⟨hb, hv⟩ := List.forall_mem_cons.mp hv
    rw [List.cons_append, RuneBoundary, List.length_cons, runeBoundaryFrom, decodeRune_ascii hb]
    exact ih hv

/-- The word in another spelling is ASCII too. -/
theorem ascii_of_spelling {v w : Str} (hw : ∀ c ∈ w, c.toNat < 0x80)
    (hv : v.map lowerByte = w) : ∀ b ∈ v, b.toNat < 0x80 := by
  intro b hb
  exact lowerByte_ascii.mp (hw _ (hv ▸ List.mem_map_of_mem hb))

theorem toLower_append_ascii {lower : Nat → Nat} {w : Str} (hlower : LowersWord lower w)
    {v : Str} (hv : ∀ b ∈ v, b.toNat < 0x80) (t : Str) :
    v.map lowerByte <+: toLower lower (v ++ t) := by
  unfold toLower
  split_ifs
  · rw [List.map_append]
    exact List.prefix_append _ _
  · have hfront : (v.map UInt8.toNat).flatMap (fun r => encodeRune (lower r)) =
        v.map lowerByte := by
      rw [List.flatMap_map, ← List.flatMap_singleton' (v.map lowerByte), List.flatMap_map]
      exact List.flatMap_congr fun b hb => encodeRune_lower_ascii hlower (hv b hb)
    rw [runes_append_ascii hv, List.flatMap_append, hfront]
    exact List.prefix_append _ _

theorem hasPrefix_toLower {lower : Nat → Nat} {w : Str} (hlower : LowersWord lower w)
    (hw : ∀ c ∈ w, c.toNat < 0x80) {s : Str} (h : hasPrefix (toLower lower s) w = true) :
    ∃ v t, s = v ++ t ∧ v.map lowerByte = w := by
  have hpre := hasPrefix_iff.mp h
  unfold toLower at hpre
  split_ifs at hpre
  · obtain ⟨u, hu⟩ := hpre
    obtain ⟨v, t, rfl, hv, _⟩ := List.map_eq_append_iff.mp hu.symm
    exact ⟨v, t, rfl, hv⟩
  · exact lowered_prefix hlower hw hpre

/-- **The prefix test on the lower-cased string is a test on the bytes of the string.** -/
theorem hasPrefix_toLower_iff {lower : Nat → Nat} {w : Str} (hlower : LowersWord lower w)
    (hw : ∀ c ∈ w, c.toNat < 0x80) (s : Str) :
    hasPrefix (toLower lower s) w = true ↔ (s.take w.length).map lowerByte = w := by
  constructor
  · intro h
    obtain ⟨v, t, rfl, rfl⟩ := hasPrefix_toLower hlower hw h
    rw [List.length_map, List.take_left]
  · intro h
    have hpre := toLower_append_ascii hlower (ascii_of_spelling hw h) (s.drop w.length)
    rw [h, List.take_append_drop] at hpre
    exact hasPrefix_iff.mpr hpre

end FileEngine.Go
