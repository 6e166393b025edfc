import FileEngine.Auth.Resolver
import FileEngine.Go.Utf8

/-!
# The token verifier

`internal/auth/jwt.go`. Decoding a token, verifying its signature and validating its
times is the work of the JWT library, a parameter (`JwtLib`): it is given the token and
the key function and returns an error, or the claims and whether the token is valid.
The case table of Unicode is the other parameter, for `strings.ToLower`.

`bearer_stripping`: the scheme is stripped exactly if the header starts with a spelling of it,
the slice `token[7:]` is in range, and neither the spelling nor the white space around it changes
what is parsed.
-/

namespace FileEngine.Auth

open Go

inductive SigningMethod
  | hmac (alg : Str)
  | rsa (alg : Str)
  | other (alg : Str)

/-- A key is the secret of the verifier or its RSA public key, given by its bytes. -/
inductive Key
  | secret (bytes : Str)
  | pubKey (bytes : Str)

/-- The claims that are read. -/
structure Claims where
  roles : List Str
  issuer : Str
  subject : Str
  audience : List Str

structure JwtLib where
  lower : Nat → Nat
  parseWithClaims : (token : Str) → (keyfunc : SigningMethod → Except Str Key) →
    Except Str (Bool × Claims)
  verifyAudience : (audience : List Str) → (cmp : Str) → (req : Bool) → Bool

structure JWTVerifier where
  secret : Str
  pubKey : Option Str
  issuer : Str
  audience : Str

/-- The key function: it enforces the signing method. -/
def JWTVerifier.keyfunc (v : JWTVerifier) : SigningMethod → Except Str Key
  | .hmac _ => if v.secret = [] then .error (str "hmac not configured") else .ok (.secret v.secret)
  | .rsa _ =>
      match v.pubKey with
      | none => .error (str "rsa public key not configured")
      | some bytes => .ok (.pubKey bytes)
  | .other alg => .error (str "unsupported signing method: " ++ alg)

def bearer : Str := str "bearer "

def parseAuthContext (lib : JwtLib) (v : JWTVerifier) (authHeader : Str) :
    Except Str AuthContext := do
  let mut token := trimSpace authHeader
  if hasPrefix (toLower lib.lower token) bearer then
    token := trimSpace (token.drop 7)
  if token = [] then
    throw (str "missing token")
  let (valid, claims) ← lib.parseWithClaims token v.keyfunc
  if ¬ valid then
    throw (str "invalid token")
  if v.issuer ≠ [] ∧ claims.issuer ≠ v.issuer then
    throw (str "invalid issuer")
  if v.audience ≠ [] ∧ ¬ lib.verifyAudience claims.audience v.audience true then
    throw (str "invalid audience")
  let userID := claims.subject
  if userID = [] then
    throw (str "missing sub claim")
  return ⟨userID, claims.roles⟩

theorem bearer_ascii : ∀ c ∈ bearer, c.toNat < 0x80 := by
  have hall : bearer.all (fun c => c.toNat < 0x80) = true := by decide
  exact fun c hc => of_decide_eq_true (List.all_eq_true.mp hall c hc)

theorem bearer_plain : PlainWord bearer := by
  have hall : bearer.all (fun c => c.toNat < 0x80 ∧ c.toNat ≠ 105 ∧ c.toNat ≠ 107) = true := by
    decide
  exact fun c hc => of_decide_eq_true (List.all_eq_true.mp hall c hc)

theorem spelling_length {word : Str} (hword : word.map lowerByte = bearer) : word.length = 7 := by
  rw [← List.length_map lowerByte, hword]
  rfl

/-! ## The token of a header -/

/-- What `parseAuthContext` makes of the header before it parses the token. -/
def bearerToken (lib : JwtLib) (authHeader : Str) : Str :=
  let token := trimSpace authHeader
  if hasPrefix (toLower lib.lower token) bearer then trimSpace (token.drop 7) else token

/-- The header is only read through its token. -/
theorem parseAuthContext_congr {lib : JwtLib} {authHeader authHeader' : Str}
    (h : bearerToken lib authHeader = bearerToken lib authHeader') (v : JWTVerifier) :
    parseAuthContext lib v authHeader = parseAuthContext lib v authHeader' := by
  unfold parseAuthContext
  extract_lets +descend token verify stripped token' stripped'
  change (if _ then verify () stripped else verify () token) =
    if _ then verify () stripped' else verify () token'
  rw [← apply_ite (verify ()), ← apply_ite (verify ())]
  exact congrArg (verify ()) h

theorem bearerToken_plain {lib : JwtLib} (hlower : LowersWord lib.lower bearer) {t : Str}
    (ht : trimSpace t = t) (hplain : (t.take 7).map lowerByte ≠ bearer) :
    bearerToken lib t = t := by
  have htest : ¬ hasPrefix (toLower lib.lower t) bearer = true :=
    fun h => hplain ((hasPrefix_toLower_iff hlower bearer_ascii t).mp h)
  simp only [bearerToken, ht, if_neg htest]

/-- No white space starts with a letter that lowers to `b`. -/
theorem spaceRunes_head : ∀ w ∈ spaceRunes, (w.map lowerByte).head? ≠ bearer.head? := by
  decide

theorem lowerByte_space {c : UInt8} (h : lowerByte c = 0x20) : c = 0x20 := by
  unfold lowerByte at h
  split_ifs at h with hup
  · have hle := UInt8.le_iff_toNat_le.mp hup.1
    have hle' := UInt8.le_iff_toNat_le.mp hup.2
    have hsum := congrArg UInt8.toNat h
    rw [UInt8.toNat_add] at hsum
    simp only [UInt8.reduceToNat] at hle hle' hsum
    omega
  · exact h

/-- In every spelling the last byte of the scheme is white space itself. -/
theorem spelling_space {word : Str} (hword : word.map lowerByte = bearer) :
    ∃ u, word = u ++ [0x20] := by
  have hbearer : word.map lowerByte = str "bearer" ++ [0x20] := hword
  obtain ⟨u, last, rfl, _, hlast⟩ := List.map_eq_append_iff.mp hbearer
  obtain ⟨c, rfl, hc⟩ := List.map_eq_singleton_iff.mp hlast
  exact ⟨u, by rw [lowerByte_space hc]⟩

theorem not_space_prefix_spelling {word : Str} (hword : word.map lowerByte = bearer) (s : Str) :
    ∀ w ∈ spaceRunes, ¬ w <+: word ++ s := by
  rintro w hw ⟨x, hx⟩
  obtain ⟨c, cs, rfl⟩ := List.exists_cons_of_ne_nil (spaceRunes_ne_nil w hw)
  cases word with
  | nil => exact absurd hword (by decide)
  | cons b bs =>
    refine spaceRunes_head _ hw ?_
    rw [← hword, (List.cons.inj hx).1]
    rfl

theorem bearerToken_word {lib : JwtLib} (hlower : LowersWord lib.lower bearer)
    {t word before between after : Str} (hne : t ≠ []) (ht : trimSpace t = t)
    (hword : word.map lowerByte = bearer) (hbefore : White before) (hbetween : White between)
    (hafter : White after) :
    bearerToken lib (before ++ word ++ between ++ t ++ after) = t := by
  have hpad := trimSpace_eq_self_iff.mp ht
  have hlen := spelling_length hword
  have houter : trimSpace (before ++ word ++ between ++ t ++ after) = word ++ between ++ t := by
    have hfront : ∀ w ∈ spaceRunes, ¬ w <+: word ++ between ++ t ++ after := by
      simpa only [List.append_assoc] using not_space_prefix_spelling hword (between ++ (t ++ after))
    have hend : ∀ w ∈ spaceRunes, ¬ w <:+ word ++ between ++ t := by
      obtain ⟨u, rfl⟩ := spelling_space hword
      have hwhite : White ([0x20] ++ between) := white_cons (by decide) hbetween
      have h := not_suffix_white (u := u) hwhite (by simp) hne fun w hw => (hpad w hw).2
      simpa only [List.append_assoc] using h
    have h := trimSpace_padded hbefore hafter hfront hend
    simpa only [List.append_assoc] using h
  have hinner : trimSpace (between ++ t) = t := by
    have hfront : ∀ w ∈ spaceRunes, ¬ w <+: t ++ [] := by
      rw [List.append_nil]
      exact fun w hw => (hpad w hw).1
    have h := trimSpace_padded hbetween white_nil hfront fun w hw => (hpad w hw).2
    rwa [List.append_nil] at h
  have htest : hasPrefix (toLower lib.lower (word ++ between ++ t)) bearer = true := by
    refine (hasPrefix_toLower_iff hlower bearer_ascii _).mpr ?_
    rw [List.append_assoc]
    show ((word ++ (between ++ t)).take 7).map lowerByte = bearer
    rw [← hlen, List.take_left, hword]
  simp only [bearerToken, houter, if_pos htest]
  rw [List.append_assoc, ← hlen, List.drop_left, hinner]

/-- **The scheme is recognised by its bytes, and its spelling does not matter.** The test on
the lower-cased header and the cut by byte offset agree for every header, valid UTF-8 or not:
the test passes for the spellings of the scheme only, and then the cut is in range and between
two runes. A token is parsed alike with the scheme in any spelling and without it, whatever
white space stands around it. -/
theorem bearer_stripping (lib : JwtLib) (hlower : LowersWord lib.lower bearer) :
    (∀ authHeader : Str, let token := trimSpace authHeader
      (hasPrefix (toLower lib.lower token) bearer = true ↔
        (token.take 7).map lowerByte = bearer) ∧
      (hasPrefix (toLower lib.lower token) bearer = true →
        7 ≤ token.length ∧ RuneBoundary token 7)) ∧
    ∀ (v : JWTVerifier) (t word before between after : Str), t ≠ [] → trimSpace t = t →
      (t.take 7).map lowerByte ≠ bearer → word.map lowerByte = bearer →
      White before → White between → White after →
      parseAuthContext lib v (before ++ word ++ between ++ t ++ after) =
        parseAuthContext lib v t := by
  constructor
  · intro authHeader
    refine ⟨hasPrefix_toLower_iff hlower bearer_ascii _, fun h => ?_⟩
    obtain ⟨word, t, heq, hword⟩ := hasPrefix_toLower hlower bearer_ascii h
    have hlen := spelling_length hword
    have hcut := runeBoundary_ascii (ascii_of_spelling bearer_ascii hword) t
    rw [hlen] at hcut
    rw [heq, List.length_append, hlen]
    exact ⟨Nat.le_add_right 7 _, hcut⟩
  · intro v t word before between after hne ht hplain hword hbefore hbetween hafter
    refine parseAuthContext_congr ?_ v
    rw [bearerToken_word hlower hne ht hword hbefore hbetween hafter,
      bearerToken_plain hlower ht hplain]

/-- A case table that also has the two runes outside ASCII that lower into it. -/
def sampleLower (r : Nat) : Nat :=
  if 65 ≤ r ∧ r ≤ 90 then r + 32
  else if r = 0x130 then 105
  else if r = 0x212A then 107
  else r

theorem sampleLower_ascii : LowersAscii sampleLower := by
  constructor
  · intro b hb
    have hup : (65 ≤ b ∧ b ≤ 90) ↔ 65 ≤ b.toNat ∧ b.toNat ≤ 90 := by
      simp only [UInt8.le_iff_toNat_le, UInt8.reduceToNat]
    unfold sampleLower lowerByte
    by_cases h : 65 ≤ b.toNat ∧ b.toNat ≤ 90
    · rw [if_pos h, if_pos (hup.mpr h), UInt8.toNat_add]
      simp only [UInt8.reduceToNat]
      omega
    · rw [if_neg h, if_neg (mt hup.mp h), if_neg (by omega), if_neg (by omega)]
  · intro r hr hlow
    unfold sampleLower at hlow ⊢
    split_ifs at hlow ⊢ <;> omega

/-- Every token is valid and is the name of its bearer. -/
def sampleLib : JwtLib where
  lower := sampleLower
  parseWithClaims token _ := .ok (true, ⟨[], [], token, []⟩)
  verifyAudience _ _ _ := true

/-- The header `bearer` with a Kelvin sign behind it, broken off in the middle of the sign, and
a scheme in capitals between a tabulator and a no-break space. -/
theorem bearer_stripping_sample :
    (hasPrefix (toLower sampleLower (str "bEaReR " ++ [0xE2, 0x84])) bearer = true ∧
      RuneBoundary (str "bEaReR " ++ [0xE2, 0x84]) 7) ∧
    parseAuthContext sampleLib ⟨str "s", none, [], []⟩
        ([0x09] ++ str "BEARER " ++ [0xC2, 0xA0] ++ str "7" ++ str " ") =
      .ok ⟨str "7", []⟩ := by
  have hlower : LowersWord sampleLib.lower bearer := sampleLower_ascii.lowersWord bearer_plain
  have hspace : ∀ w ∈ spaceRunes, White w := fun w hw => ⟨[w], by simpa using hw, by simp⟩
  obtain ⟨htest, hcut⟩ := (bearer_stripping sampleLib hlower).1 (str "bEaReR " ++ [0xE2, 0x84])
  have hbroken : trimSpace (str "bEaReR " ++ [0xE2, 0x84]) = str "bEaReR " ++ [0xE2, 0x84] := by
    decide +kernel
  rw [hbroken] at htest hcut
  have hpass := htest.mpr (by decide)
  refine ⟨⟨hpass, (hcut hpass).2⟩, ?_⟩
  rw [(bearer_stripping sampleLib hlower).2 _ (str "7") (str "BEARER ") [0x09] [0xC2, 0xA0]
    (str " ") (by decide) (by decide +kernel) (by decide) (by decide)
    (hspace _ (by decide)) (hspace _ (by decide)) (hspace _ (by decide))]
  rfl

end FileEngine.Auth
