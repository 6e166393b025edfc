import FileEngine.Go.Utf8

/-!
# Strings in JSON

How `encoding/json` writes a string and reads it back. `appendString` writes what can stand in
JSON and in HTML as it is and escapes the rest; a byte that starts no valid encoding is written
as the escape of `runeError`. Reading has two parts, as in the package: the scanner finds the
closing quote and checks the escapes on the way (`scanString`), and `unquote` replaces them.

`unquote_quote` is the round trip: what is read back is the string with all that is not valid
UTF-8 replaced, so exactly the string if it is valid.
-/

namespace FileEngine.Go

/-- A string with everything that is not valid UTF-8 replaced by `runeError`. -/
def repair (s : Str) : Str := (runes s).flatMap encodeRune

def ValidUtf8 (s : Str) : Prop := repair s = s

instance (s : Str) : Decidable (ValidUtf8 s) := inferInstanceAs (Decidable (repair s = s))

/-! ## Induction along the runes -/

/-- Beyond ASCII, a string starts with an encoding that nothing behind it changes, or with a byte
that is no part of one. -/
theorem decodeRune_multi {b : UInt8} (hb : ¬ b.toNat < 0x80) (bs : Str) :
    decodeRune (b :: bs) = (runeError, 1) ∨
      ∃ x t c, bs = x ++ t ∧ x ≠ [] ∧ (∀ y ∈ x, 0x80 ≤ y.toNat) ∧
        ∀ t', decodeRune (b :: (x ++ t')) = (c, x.length + 1) := by
  have hlo : ∀ w lo hi, lead b.toNat = some (w, lo, hi) → 0x80 ≤ lo := by
    intro w lo hi hlead
    unfold lead at hlead
    split_ifs at hlead <;> simp only [Option.some.injEq, Prod.mk.injEq] at hlead <;> omega
  simp only [decodeRune, if_neg hb]
  split
  · rename_i lo hi b1 tail hlead hbs
    obtain ⟨y1, t, rfl, rfl, rfl⟩ := List.map_eq_cons_iff.mp hbs
    split_ifs with hcond
    · refine Or.inr ⟨[y1], t, b.toNat % 32 * 64 + y1.toNat % 64, rfl, by simp, ?_, fun t' => ?_⟩
      · have := hlo _ _ _ hlead
        simp only [List.mem_singleton, forall_eq]
        omega
      · simp only [List.singleton_append, List.map_cons, hlead, hcond, and_self, if_true]
        rfl
    · exact Or.inl rfl
  · rename_i lo hi b1 b2 tail hlead hbs
    obtain ⟨y1, t, rfl, rfl, hbs₁⟩ := List.map_eq_cons_iff.mp hbs
    obtain ⟨y2, t, rfl, rfl, rfl⟩ := List.map_eq_cons_iff.mp hbs₁
    split_ifs with hcond
    · refine Or.inr ⟨[y1, y2], t, (b.toNat % 16 * 64 + y1.toNat % 64) * 64 + y2.toNat % 64, rfl,
        by simp, ?_, fun t' => ?_⟩
      · have := hlo _ _ _ hlead
        simp only [List.mem_cons, List.not_mem_nil, or_false, forall_eq_or_imp, forall_eq]
        omega
      · simp only [List.cons_append, List.nil_append, List.map_cons, hlead, hcond, and_self,
          if_true]
        rfl
    · exact Or.inl rfl
  · rename_i lo hi b1 b2 b3 tail hlead hbs
    obtain ⟨y1, t, rfl, rfl, hbs₁⟩ := List.map_eq_cons_iff.mp hbs
    obtain ⟨y2, t, rfl, rfl, hbs₂⟩ := List.map_eq_cons_iff.mp hbs₁
    obtain ⟨y3, t, rfl, rfl, rfl⟩ := List.map_eq_cons_iff.mp hbs₂
    split_ifs with hcond
    · refine Or.inr ⟨[y1, y2, y3], t,
        ((b.toNat % 8 * 64 + y1.toNat % 64) * 64 + y2.toNat % 64) * 64 + y3.toNat % 64, rfl,
        by simp, ?_, fun t' => ?_⟩
      · have := hlo _ _ _ hlead
        simp only [List.mem_cons, List.not_mem_nil, or_false, forall_eq_or_imp, forall_eq]
        omega
      · simp only [List.cons_append, List.nil_append, List.map_cons, hlead, hcond, and_self,
          if_true]
        rfl
    · exact Or.inl rfl
  · exact Or.inl rfl

/-- The induction along the runes of a string: a byte of ASCII, a byte that is not part of a valid
encoding, and an encoding of several bytes. -/
theorem rune_induction {P : Str → Prop} (nil : P [])
    (ascii : ∀ b bs, b.toNat < 0x80 → P bs → P (b :: bs))
    (bad : ∀ b bs, ¬ b.toNat < 0x80 → decodeRune (b :: bs) = (runeError, 1) → P bs → P (b :: bs))
    (multi : ∀ b x t c, ¬ b.toNat < 0x80 → x ≠ [] → (∀ y ∈ x, 0x80 ≤ y.toNat) →
      (∀ t', decodeRune (b :: (x ++ t')) = (c, x.length + 1)) → P t → P (b :: (x ++ t)))
    (s : Str) : P s := by
  induction hn : s.length using Nat.strong_induction_on generalizing s with
  | _ n ih =>
    subst hn
    cases s with
    | nil => exact nil
    | cons b bs =>
      by_cases hb : b.toNat < 0x80
      · exact ascii b bs hb (ih _ (Nat.lt_succ_self _) bs rfl)
      · rcases decodeRune_multi hb bs with hbad | ⟨x, t, c, rfl, hx, hhigh, hdecode⟩
        · exact bad b bs hb hbad (ih _ (Nat.lt_succ_self _) bs rfl)
        · refine multi b x t c hb hx hhigh hdecode (ih _ ?_ t rfl)
          simp only [List.length_cons, List.length_append]
          omega

theorem runesFrom_eq (k : Nat) (s : Str) : runesFrom k s = runes (s.drop k) := by
  induction k generalizing s with
  | zero => rfl
  | succ k ih =>
    cases s with
    | nil => rfl
    | cons b bs => exact ih bs

theorem repair_ascii {b : UInt8} (hb : b.toNat < 0x80) (bs : Str) :
    repair (b :: bs) = b :: repair bs := by
  have hencode : encodeRune b.toNat = [b] := by simp [encodeRune, hb]
  rw [repair, runes, runesFrom, decodeRune_ascii hb, List.flatMap_cons, hencode]
  rfl

theorem repair_bad {b : UInt8} {bs : Str} (h : decodeRune (b :: bs) = (runeError, 1)) :
    repair (b :: bs) = encodeRune runeError ++ repair bs := by
  rw [repair, runes, runesFrom, h, List.flatMap_cons]
  rfl

theorem repair_multi {b : UInt8} {x : Str} {c : Nat} (t : Str)
    (h : ∀ t', decodeRune (b :: (x ++ t')) = (c, x.length + 1)) :
    repair (b :: (x ++ t)) = encodeRune c ++ repair t := by
  rw [repair, runes, runesFrom, h, List.flatMap_cons, Nat.add_sub_cancel, runesFrom_eq,
    List.drop_left]
  rfl

theorem validUtf8_ascii {s : Str} (h : ∀ b ∈ s, b.toNat < 0x80) : ValidUtf8 s := by
  induction s with
  | nil => rfl
  | cons b bs ih =>
    obtain ⟨hb, hbs⟩ := List.forall_mem_cons.mp h
    rw [ValidUtf8, repair_ascii hb]
    exact congrArg (b :: ·) (ih hbs)

namespace Json

def quoteMark : UInt8 := 34
def backslash : UInt8 := 92

/-! ## Writing -/

/-- `htmlSafeSet`, for a byte of ASCII. -/
def htmlSafe (b : UInt8) : Bool := 32 ≤ b ∧ b ∉ [quoteMark, 38, 60, 62, backslash]

/-- The bytes with an escape of one letter, and the letter. -/
def shortEscapes : List (UInt8 × UInt8) := [(8, 98), (12, 102), (10, 110), (13, 114), (9, 116)]

/-- How a byte of ASCII is written. -/
def escapeByte (b : UInt8) : Str :=
  if htmlSafe b then [b]
  else if b = backslash ∨ b = quoteMark then [backslash, b]
  else
    match shortEscapes.lookup b with
    | some letter => [backslash, letter]
    | none => str "\\u00" ++ [hexDigit (b.toNat / 16), hexDigit (b.toNat % 16)]

/-- What stands between the quotes. So many bytes still belong to the rune before; they are
copied or left out. -/
def quoteFrom : (skip : Nat) → (copy : Bool) → Str → Str
  | _, _, [] => []
  | skip + 1, copy, b :: bs => (if copy then [b] else []) ++ quoteFrom skip copy bs
  | 0, _, b :: bs =>
      if b.toNat < 0x80 then escapeByte b ++ quoteFrom 0 true bs
      else
        let (c, size) := decodeRune (b :: bs)
        if c = runeError ∧ size = 1 then str "\\ufffd" ++ quoteFrom 0 true bs
        else if c = 0x2028 ∨ c = 0x2029 then
          str "\\u202" ++ [hexDigit (c % 16)] ++ quoteFrom (size - 1) false bs
        else b :: quoteFrom (size - 1) true bs

def quote (s : Str) : Str := quoteFrom 0 true s

def appendString (s : Str) : Str := [quoteMark] ++ quote s ++ [quoteMark]

/-! ## Reading -/

/-- Where the scanner is in a string: among its characters, after a backslash, or before so
many more hexadecimal digits and one. -/
inductive Scan
  | inString
  | esc
  | escU (left : Nat)

/-- The letters that may follow a backslash, other than `u`. -/
def escapeLetters : Str := str "bfnrt\\/\""

/-- What stands up to the closing quote, and what stands after it. -/
def scanFrom : Scan → Str → Option (Str × Str)
  | _, [] => none
  | .inString, c :: cs =>
      if c = quoteMark then some ([], cs)
      else if c = backslash then (scanFrom .esc cs).map fun (raw, rest) => (c :: raw, rest)
      else if c < 32 then none
      else (scanFrom .inString cs).map fun (raw, rest) => (c :: raw, rest)
  | .esc, c :: cs =>
      if c ∈ escapeLetters then (scanFrom .inString cs).map fun (raw, rest) => (c :: raw, rest)
      else if c = 117 then (scanFrom (.escU 3) cs).map fun (raw, rest) => (c :: raw, rest)
      else none
  | .escU left, c :: cs =>
      if (hexValue c).isSome then
        (scanFrom (match left with | 0 => .inString | n + 1 => .escU n) cs).map
          fun (raw, rest) => (c :: raw, rest)
      else none

def scanString (s : Str) : Option (Str × Str) := scanFrom .inString s

/-- `getu4`: the number in an escape `\uXXXX` at the start of the string. -/
def getu4 : Str → Option Nat
  | b :: u :: x₁ :: x₂ :: x₃ :: x₄ :: _ =>
      if b = backslash ∧ u = 117 then do
        let d₁ ← hexValue x₁
        let d₂ ← hexValue x₂
        let d₃ ← hexValue x₃
        let d₄ ← hexValue x₄
        return ((d₁ * 16 + d₂) * 16 + d₃) * 16 + d₄
      else none
  | _ => none

def isSurrogate (r : Nat) : Bool := 0xD800 ≤ r ∧ r < 0xE000

/-- `utf16.DecodeRune`. -/
def decodePair (r₁ r₂ : Nat) : Nat :=
  if (0xD800 ≤ r₁ ∧ r₁ < 0xDC00) ∧ (0xDC00 ≤ r₂ ∧ r₂ < 0xE000) then
    (r₁ - 0xD800) * 1024 + (r₂ - 0xDC00) + 0x10000
  else runeError

/-- The rune of an escape `\uXXXX` with the number `r`, and how many bytes after the `u` belong to
it: a pair of surrogates is one rune, and a single one is replaced. -/
def escapedRune (r : Nat) (rest : Str) : Nat × Nat :=
  if isSurrogate r then
    match getu4 (rest.drop 4) with
    | some r' => if decodePair r r' ≠ runeError then (decodePair r r', 10) else (runeError, 4)
    | none => (runeError, 4)
  else (r, 4)

/-- What a letter after a backslash stands for. -/
def unescape (c : UInt8) : Option UInt8 :=
  if c ∈ [quoteMark, backslash, 47, 39] then some c
  else (shortEscapes.map Prod.swap).lookup c

/-- `unquote`; so many bytes are already dealt with. -/
def unquoteFrom : (skip : Nat) → Str → Option Str
  | _, [] => some []
  | skip + 1, _ :: bs => unquoteFrom skip bs
  | 0, b :: bs =>
      if b = backslash then
        match bs with
        | [] => none
        | e :: rest =>
            match unescape e with
            | some c => (unquoteFrom 0 rest).map (c :: ·)
            | none =>
                match getu4 (b :: e :: rest) with
                | none => none
                | some r => (unquoteFrom (escapedRune r rest).2 rest).map
                    (encodeRune (escapedRune r rest).1 ++ ·)
      else if b = quoteMark ∨ b < 32 then none
      else if b.toNat < 0x80 then (unquoteFrom 0 bs).map (b :: ·)
      else (unquoteFrom ((decodeRune (b :: bs)).2 - 1) bs).map
        (encodeRune (decodeRune (b :: bs)).1 ++ ·)

def unquote (raw : Str) : Option Str := unquoteFrom 0 raw

/-! ## What is written, rune by rune -/

theorem quoteFrom_copy (k : Nat) (s : Str) :
    quoteFrom k true s = s.take k ++ quote (s.drop k) := by
  induction k generalizing s with
  | zero => rfl
  | succ k ih =>
    cases s with
    | nil => rfl
    | cons b bs => exact congrArg (b :: ·) (ih bs)

theorem quoteFrom_drop (k : Nat) (s : Str) : quoteFrom k false s = quote (s.drop k) := by
  induction k generalizing s with
  | zero => cases s <;> rfl
  | succ k ih =>
    cases s with
    | nil => rfl
    | cons b bs => exact ih bs

theorem unquoteFrom_eq (k : Nat) (s : Str) : unquoteFrom k s = unquote (s.drop k) := by
  induction k generalizing s with
  | zero => rfl
  | succ k ih =>
    cases s with
    | nil => rfl
    | cons b bs => exact ih bs

theorem quote_ascii {b : UInt8} (hb : b.toNat < 0x80) (bs : Str) :
    quote (b :: bs) = escapeByte b ++ quote bs := by
  rw [quote, quoteFrom, if_pos hb]
  rfl

theorem quote_bad {b : UInt8} {bs : Str} (hb : ¬ b.toNat < 0x80)
    (h : decodeRune (b :: bs) = (runeError, 1)) :
    quote (b :: bs) = str "\\ufffd" ++ quote bs := by
  rw [quote, quoteFrom, if_neg hb, h]
  rfl

theorem quote_multi {b : UInt8} {x : Str} {c : Nat} (hb : ¬ b.toNat < 0x80) (hx : x ≠ [])
    (h : ∀ t', decodeRune (b :: (x ++ t')) = (c, x.length + 1)) (t : Str) :
    quote (b :: (x ++ t)) = (if c = 0x2028 ∨ c = 0x2029 then
      str "\\u202" ++ [hexDigit (c % 16)] else b :: x) ++ quote t := by
  have hsize : ¬ (c = runeError ∧ x.length + 1 = 1) := by
    rintro ⟨_, hlen⟩
    exact hx (List.length_eq_zero_iff.mp (by omega))
  rw [quote, quoteFrom, if_neg hb, h]
  simp only [if_neg hsize, Nat.add_sub_cancel, quoteFrom_drop, quoteFrom_copy, List.drop_left,
    List.take_left]
  split
  · rfl
  · rfl

/-! ## The scanner -/

/-- The scanner goes over the text and stays in the string. -/
def Passes (x : Str) : Prop :=
  ∀ t, scanString (x ++ t) = (scanString t).map fun (raw, rest) => (x ++ raw, rest)

theorem passes_nil : Passes [] := by
  intro t
  cases h : scanString t <;> simp [h]

theorem Passes.append {x y : Str} (hx : Passes x) (hy : Passes y) : Passes (x ++ y) := by
  intro t
  rw [List.append_assoc, hx, hy]
  cases scanString t <;> simp

theorem passes_byte {b : UInt8} (hq : b ≠ quoteMark) (hs : b ≠ backslash) (hc : ¬ b < 32) :
    Passes [b] := by
  intro t
  rw [List.singleton_append, scanString, scanFrom, if_neg hq, if_neg hs, if_neg hc]
  rfl

theorem passes_letter {c : UInt8} (hc : c ∈ escapeLetters) : Passes [backslash, c] := by
  intro t
  have hq : backslash ≠ quoteMark := by decide
  rw [List.cons_append, List.singleton_append, scanString, scanFrom, if_neg hq, if_pos rfl,
    scanFrom, if_pos hc]
  cases h : scanFrom .inString t <;> simp [scanString, h]

theorem passes_escape {x₁ x₂ x₃ x₄ : UInt8} (h₁ : (hexValue x₁).isSome) (h₂ : (hexValue x₂).isSome)
    (h₃ : (hexValue x₃).isSome) (h₄ : (hexValue x₄).isSome) :
    Passes [backslash, 117, x₁, x₂, x₃, x₄] := by
  intro t
  have hq : backslash ≠ quoteMark := by decide
  have hu : (117 : UInt8) ∉ escapeLetters := by decide +kernel
  simp only [List.cons_append, List.nil_append, scanString, scanFrom, if_neg hq, if_true,
    if_neg hu, h₁, h₂, h₃, h₄]
  cases h : scanFrom .inString t <;> simp

/-- Bytes outside of ASCII are nothing special. -/
theorem passes_high {x : Str} (h : ∀ b ∈ x, 0x80 ≤ b.toNat) : Passes x := by
  induction x with
  | nil => exact passes_nil
  | cons b x ih =>
    obtain ⟨hb, hx⟩ := List.forall_mem_cons.mp h
    refine (passes_byte ?_ ?_ ?_).append (ih hx)
    · rintro rfl
      exact absurd hb (by decide)
    · rintro rfl
      exact absurd hb (by decide)
    · rw [UInt8.lt_iff_toNat_lt]
      simp only [UInt8.reduceToNat]
      omega

/-- A byte of ASCII that has to be escaped is a control character or one of a few more. -/
theorem escapeByte_cases {b : UInt8} (hb : b.toNat < 0x80) :
    (escapeByte b = [b] ∧ b ≠ quoteMark ∧ b ≠ backslash ∧ ¬ b < 32) ∨
      (∃ c, escapeByte b = [backslash, c] ∧ c ∈ escapeLetters ∧ unescape c = some b) ∨
      escapeByte b =
        [backslash, 117, 48, 48, hexDigit (b.toNat / 16), hexDigit (b.toNat % 16)] := by
  have hall : ∀ n < 128, (escapeByte (UInt8.ofNat n) = [UInt8.ofNat n] ∧
      UInt8.ofNat n ≠ quoteMark ∧ UInt8.ofNat n ≠ backslash ∧ ¬ UInt8.ofNat n < 32) ∨
      (∃ c ∈ escapeLetters, escapeByte (UInt8.ofNat n) = [backslash, c] ∧
        unescape c = some (UInt8.ofNat n)) ∨
      escapeByte (UInt8.ofNat n) =
        [backslash, 117, 48, 48, hexDigit (n / 16), hexDigit (n % 16)] := by
    decide +kernel
  have h := hall b.toNat hb
  rw [UInt8.ofNat_toNat] at h
  rcases h with h | ⟨c, hc, heq, hun⟩ | h
  · exact Or.inl h
  · exact Or.inr (Or.inl ⟨c, heq, hc, hun⟩)
  · exact Or.inr (Or.inr h)

theorem passes_quote (s : Str) : Passes (quote s) := by
  induction s using rune_induction with
  | nil => exact passes_nil
  | ascii b bs hb ih =>
    rw [quote_ascii hb]
    refine Passes.append ?_ ih
    rcases escapeByte_cases hb with ⟨heq, hq, hs, hc⟩ | ⟨c, heq, hc, _⟩ | heq
    · rw [heq]
      exact passes_byte hq hs hc
    · rw [heq]
      exact passes_letter hc
    · rw [heq]
      have hdiv : b.toNat / 16 < 16 := by omega
      have hmod : b.toNat % 16 < 16 := by omega
      refine passes_escape rfl rfl ?_ ?_
      · rw [hexValue_hexDigit _ hdiv]
        rfl
      · rw [hexValue_hexDigit _ hmod]
        rfl
  | bad b bs hb hdecode ih =>
    rw [quote_bad hb hdecode]
    exact (passes_escape rfl rfl rfl rfl).append ih
  | multi b x t c hb hx hhigh hdecode ih =>
    rw [quote_multi hb hx hdecode]
    refine Passes.append ?_ ih
    split
    · refine passes_escape rfl rfl rfl ?_
      rw [hexValue_hexDigit _ (by omega)]
      rfl
    · refine passes_high (List.forall_mem_cons.mpr ⟨by omega, hhigh⟩)

/-- The scanner finds the closing quote. -/
theorem scanString_quote (s rest : Str) :
    scanString (quote s ++ quoteMark :: rest) = some (quote s, rest) := by
  have hend : scanString (quoteMark :: rest) = some ([], rest) := rfl
  rw [passes_quote s, hend]
  simp

/-! ## Reading back -/

theorem unquote_letter {b c : UInt8} (h : unescape c = some b) (t : Str) :
    unquote (backslash :: c :: t) = (unquote t).map (b :: ·) := by
  rw [unquote, unquoteFrom.eq_def]
  simp only [if_true, h]
  rfl

theorem unquote_escape {x₁ x₂ x₃ x₄ : UInt8} {r : Nat} (t : Str)
    (hget : ∀ t', getu4 ([backslash, 117, x₁, x₂, x₃, x₄] ++ t') = some r)
    (hr : isSurrogate r = false) :
    unquote ([backslash, 117, x₁, x₂, x₃, x₄] ++ t) = (unquote t).map (encodeRune r ++ ·) := by
  have hun : unescape 117 = none := by decide
  have hget' : getu4 (backslash :: 117 :: (x₁ :: x₂ :: x₃ :: x₄ :: t)) = some r := hget t
  have hrune : escapedRune r (x₁ :: x₂ :: x₃ :: x₄ :: t) = (r, 4) := by simp [escapedRune, hr]
  show unquote (backslash :: 117 :: (x₁ :: x₂ :: x₃ :: x₄ :: t)) = _
  rw [unquote, unquoteFrom.eq_def]
  simp only [if_true, hun, hget', hrune]
  rw [unquoteFrom_eq]
  rfl

theorem unquote_byte {b : UInt8} (hb : b.toNat < 0x80) (hq : b ≠ quoteMark) (hs : b ≠ backslash)
    (hc : ¬ b < 32) (t : Str) : unquote (b :: t) = (unquote t).map (b :: ·) := by
  have hno : ¬ (b = quoteMark ∨ b < 32) := by simp [hq, hc]
  rw [unquote, unquoteFrom.eq_def]
  simp only [if_neg hs, if_neg hno, if_pos hb]
  rfl

theorem unquote_multi {b : UInt8} {x : Str} {c : Nat} (hb : ¬ b.toNat < 0x80)
    (h : ∀ t', decodeRune (b :: (x ++ t')) = (c, x.length + 1)) (t : Str) :
    unquote (b :: (x ++ t)) = (unquote t).map (encodeRune c ++ ·) := by
  have hs : b ≠ backslash := by
    rintro rfl
    exact hb (by decide)
  have hq : ¬ (b = quoteMark ∨ b < 32) := by
    rintro (rfl | hlt)
    · exact hb (by decide)
    · have hlt' := UInt8.lt_iff_toNat_lt.mp hlt
      simp only [UInt8.reduceToNat] at hlt'
      omega
  rw [unquote, unquoteFrom.eq_def]
  simp only [if_neg hs, if_neg hq, if_neg hb, h, Nat.add_sub_cancel]
  rw [unquoteFrom_eq, List.drop_left]

/-- **A string is read back as it was written**, up to what is not valid UTF-8. -/
theorem unquote_quote (s : Str) : unquote (quote s) = some (repair s) := by
  induction s using rune_induction with
  | nil => rfl
  | ascii b bs hb ih =>
    rw [quote_ascii hb, repair_ascii hb]
    rcases escapeByte_cases hb with ⟨heq, hq, hs, hc⟩ | ⟨c, heq, _, hun⟩ | heq
    · rw [heq, List.singleton_append, unquote_byte hb hq hs hc, ih]
      rfl
    · rw [heq, List.cons_append, List.singleton_append, unquote_letter hun, ih]
      rfl
    · have hdiv := hexValue_hexDigit (b.toNat / 16) (by omega)
      have hmod := hexValue_hexDigit (b.toNat % 16) (by omega)
      have hzero : hexValue 48 = some 0 := rfl
      have hencode : encodeRune b.toNat = [b] := by simp [encodeRune, hb]
      rw [heq, unquote_escape (r := b.toNat) _ ?_ ?_, ih, hencode]
      · rfl
      · intro t'
        simp only [List.cons_append, List.nil_append, getu4, and_self, if_true, hzero, hdiv, hmod,
          Option.bind_eq_bind, Option.bind_some, Option.pure_def, Option.some.injEq]
        omega
      · simp only [isSurrogate, decide_eq_false_iff_not]
        omega
  | bad b bs hb hdecode ih =>
    have hget : ∀ t', getu4 (str "\\ufffd" ++ t') = some runeError := fun _ => rfl
    rw [quote_bad hb hdecode, repair_bad hdecode]
    rw [show str "\\ufffd" = [backslash, 117, 102, 102, 102, 100] from rfl] at hget ⊢
    rw [unquote_escape _ hget rfl, ih]
    rfl
  | multi b x t c hb hx hhigh hdecode ih =>
    rw [quote_multi hb hx hdecode, repair_multi t hdecode]
    split
    · rename_i hsep
      have hget : ∀ t', getu4 ([backslash, 117, 50, 48, 50, hexDigit (c % 16)] ++ t') = some c := by
        intro t'
        rcases hsep with rfl | rfl <;> rfl
      have hsur : isSurrogate c = false := by
        rcases hsep with rfl | rfl <;> rfl
      rw [show str "\\u202" ++ [hexDigit (c % 16)] =
        [backslash, 117, 50, 48, 50, hexDigit (c % 16)] from rfl, unquote_escape _ hget hsur, ih]
      rfl
    · rw [List.cons_append, unquote_multi hb hdecode, ih]
      rfl

example : appendString (str "a<\n\"") = str "\"a\\u003c\\n\\\"\"" := by decide +kernel

example : unquote (str "\\ud83d\\ude00\\ud83d") =
    some ([240, 159, 152, 128] ++ [239, 191, 189]) := by
  decide +kernel

end Json

end FileEngine.Go
