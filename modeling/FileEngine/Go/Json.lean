import FileEngine.Go.JsonText

/-!
# JSON values

The values that `encoding/json` reads. A number is kept as its text. The reader goes down into
arrays and objects, up to the depth that the package allows; it takes fuel, of which twice the
length of the text is always enough (`parse_fuel`).

`Parses` says of a text that it is read as a value whatever stands behind it, and `objectText`
is how a struct or a map is written. `parses_objectText`: an object is read back member by
member. `store_members`: a map is read back from an object, whatever the order of its members.
-/

namespace FileEngine.Go.Json

inductive Value
  | null
  | bool (b : Bool)
  | num (text : Str)
  | str (s : Str)
  | arr (items : List Value)
  | obj (members : List (Str × Value))

/-! ## Reading -/

def isSpace (b : UInt8) : Bool := b ∈ [32, 9, 13, 10]

def skipSpace (s : Str) : Str := s.dropWhile isSpace

/-- What stands behind the byte, which comes first up to white space. -/
def after (b : UInt8) (s : Str) : Option Str :=
  match skipSpace s with
  | [] => none
  | c :: cs => if c = b then some cs else none

def isDigit (b : UInt8) : Bool := 48 ≤ b ∧ b ≤ 57

/-- Digits, at least one. -/
def digits (s : Str) : Option (Str × Str) :=
  if s.takeWhile isDigit = [] then none else some (s.takeWhile isDigit, s.dropWhile isDigit)

/-- A sign, if there is one of these. -/
def sign (signs : Str) : Str → Str × Str
  | [] => ([], [])
  | c :: cs => if c ∈ signs then ([c], cs) else ([], c :: cs)

def integer : Str → Option (Str × Str)
  | [] => none
  | c :: cs => if c = 48 then some ([c], cs) else digits (c :: cs)

def fraction : Str → Option (Str × Str)
  | [] => some ([], [])
  | c :: cs =>
      if c = 46 then (digits cs).map fun (ds, rest) => (c :: ds, rest)
      else some ([], c :: cs)

def exponent : Str → Option (Str × Str)
  | [] => some ([], [])
  | c :: cs =>
      if c = 101 ∨ c = 69 then
        (digits (sign [43, 45] cs).2).map fun (ds, rest) => (c :: (sign [43, 45] cs).1 ++ ds, rest)
      else some ([], c :: cs)

def number (s : Str) : Option (Value × Str) := do
  let (i, s₁) ← integer (sign [45] s).2
  let (f, s₂) ← fraction s₁
  let (e, s₃) ← exponent s₂
  return (.num ((sign [45] s).1 ++ i ++ f ++ e), s₃)

def scalar (s : Str) : Option (Value × Str) :=
  if hasPrefix s (str "null") then some (.null, s.drop 4)
  else if hasPrefix s (str "true") then some (.bool true, s.drop 4)
  else if hasPrefix s (str "false") then some (.bool false, s.drop 5)
  else number s

/-- A string, from behind its opening quote. -/
def stringBody (s : Str) : Option (Str × Str) := do
  let (raw, rest) ← scanString s
  let t ← unquote raw
  return (t, rest)

mutual

def parseValue : (fuel depth : Nat) → Str → Option (Value × Str)
  | 0, _, _ => none
  | fuel + 1, depth, s =>
      match skipSpace s with
      | [] => none
      | c :: cs =>
          if c = quoteMark then (stringBody cs).map fun (t, rest) => (.str t, rest)
          else if c = 123 ∨ c = 91 then
            match depth with
            | 0 => none
            | depth + 1 =>
                if c = 123 then
                  match after 125 cs with
                  | some rest => some (.obj [], rest)
                  | none => (parseMembers fuel depth cs).map fun (ms, rest) => (.obj ms, rest)
                else
                  match after 93 cs with
                  | some rest => some (.arr [], rest)
                  | none => (parseItems fuel depth cs).map fun (vs, rest) => (.arr vs, rest)
          else scalar (c :: cs)

/-- The values of an array, up to its closing bracket. -/
def parseItems : (fuel depth : Nat) → Str → Option (List Value × Str)
  | 0, _, _ => none
  | fuel + 1, depth, s => do
      let (v, s₁) ← parseValue fuel depth s
      match after 44 s₁ with
      | some s₂ => (parseItems fuel depth s₂).map fun (vs, rest) => (v :: vs, rest)
      | none => (after 93 s₁).map fun rest => ([v], rest)

/-- The members of an object, up to its closing brace. -/
def parseMembers : (fuel depth : Nat) → Str → Option (List (Str × Value) × Str)
  | 0, _, _ => none
  | fuel + 1, depth, s => do
      let s₁ ← after quoteMark s
      let (key, s₂) ← stringBody s₁
      let s₃ ← after 58 s₂
      let (v, s₄) ← parseValue fuel depth s₃
      match after 44 s₄ with
      | some s₅ => (parseMembers fuel depth s₅).map fun (ms, rest) => ((key, v) :: ms, rest)
      | none => (after 125 s₄).map fun rest => ([(key, v)], rest)

end

/-- `maxNestingDepth`. -/
def maxDepth : Nat := 10000

/-- The value of a whole text, if it is valid. -/
def parse (s : Str) : Option Value :=
  match parseValue (2 * s.length + 1) maxDepth s with
  | none => none
  | some (v, rest) => if skipSpace rest = [] then some v else none

/-! ## Fuel

Every reader takes something off the text, so each call goes down to a shorter one. -/

theorem skipSpace_length (s : Str) : (skipSpace s).length ≤ s.length :=
  (List.dropWhile_sublist isSpace).length_le

theorem after_length {b : UInt8} {s t : Str} (h : after b s = some t) : t.length < s.length := by
  have hskip := skipSpace_length s
  unfold after at h
  split at h
  · cases h
  · rename_i c cs hs
    rw [hs] at hskip
    split at h
    · cases h
      exact Nat.lt_of_succ_le hskip
    · cases h

theorem scanFrom_length {st : Scan} {s raw rest : Str} (h : scanFrom st s = some (raw, rest)) :
    rest.length < s.length := by
  induction s generalizing st raw with
  | nil => cases st <;> cases h
  | cons c cs ih =>
    have hmap : ∀ st', (scanFrom st' cs).map (fun x => (c :: x.1, x.2)) = some (raw, rest) →
        rest.length < (c :: cs).length := by
      intro st' hst
      obtain ⟨⟨raw', rest'⟩, hscan, heq⟩ := Option.map_eq_some_iff.mp hst
      cases heq
      exact Nat.lt_succ_of_lt (ih hscan)
    cases st with
    | inString =>
      simp only [scanFrom] at h
      split_ifs at h
      · cases h
        exact Nat.lt_succ_self _
      · exact hmap _ h
      · exact hmap _ h
    | esc =>
      simp only [scanFrom] at h
      split_ifs at h
      · exact hmap _ h
      · exact hmap _ h
    | escU left =>
      simp only [scanFrom] at h
      split_ifs at h
      exact hmap _ h

theorem stringBody_length {s t rest : Str} (h : stringBody s = some (t, rest)) :
    rest.length < s.length := by
  obtain ⟨⟨raw, rest'⟩, hscan, h⟩ := Option.bind_eq_some_iff.mp h
  obtain ⟨t', _, h⟩ := Option.bind_eq_some_iff.mp h
  cases h
  exact scanFrom_length hscan

theorem digits_length {s ds rest : Str} (h : digits s = some (ds, rest)) :
    rest.length < s.length := by
  unfold digits at h
  split at h
  · cases h
  · rename_i hne
    cases h
    have hlen := congrArg List.length (List.takeWhile_append_dropWhile (p := isDigit) (l := s))
    rw [List.length_append] at hlen
    have := List.length_pos_iff.mpr hne
    omega

theorem sign_length (signs s : Str) : (sign signs s).2.length ≤ s.length := by
  cases s with
  | nil => exact le_rfl
  | cons c cs =>
    rw [sign]
    split
    · exact Nat.le_succ _
    · exact le_rfl

theorem number_length {s rest : Str} {v : Value} (h : number s = some (v, rest)) :
    rest.length < s.length := by
  obtain ⟨⟨i, s₁⟩, hi, h⟩ := Option.bind_eq_some_iff.mp h
  obtain ⟨⟨f, s₂⟩, hf, h⟩ := Option.bind_eq_some_iff.mp h
  obtain ⟨⟨e, s₃⟩, he, h⟩ := Option.bind_eq_some_iff.mp h
  cases h
  have h₀ := sign_length [45] s
  have h₁ : s₁.length < (sign [45] s).2.length := by
    unfold integer at hi
    split at hi
    · cases hi
    · rename_i c cs hs
      rw [hs]
      split at hi
      · cases hi
        exact Nat.lt_succ_self _
      · exact digits_length hi
  have h₂ : s₂.length ≤ s₁.length := by
    unfold fraction at hf
    split at hf
    · cases hf
      exact le_rfl
    · split at hf
      · obtain ⟨⟨ds, r⟩, hds, heq⟩ := Option.map_eq_some_iff.mp hf
        cases heq
        exact Nat.le_succ_of_le (Nat.le_of_lt (digits_length hds))
      · cases hf
        exact le_rfl
  have h₃ : rest.length ≤ s₂.length := by
    unfold exponent at he
    split at he
    · cases he
      exact le_rfl
    · rename_i c cs
      split at he
      · obtain ⟨⟨ds, r⟩, hds, heq⟩ := Option.map_eq_some_iff.mp he
        cases heq
        have := digits_length hds
        have := sign_length [43, 45] cs
        simp only [List.length_cons]
        omega
      · cases he
        exact le_rfl
  omega

theorem scalar_length {s rest : Str} {v : Value} (h : scalar s = some (v, rest)) :
    rest.length < s.length := by
  have hdrop : ∀ w : Str, w ≠ [] → hasPrefix s w = true → (s.drop w.length).length < s.length := by
    intro w hw hp
    have hle := (hasPrefix_iff.mp hp).length_le
    have := List.length_pos_iff.mpr hw
    rw [List.length_drop]
    omega
  unfold scalar at h
  split_ifs at h with hnull htrue hfalse
  · cases h
    exact hdrop _ (by decide) hnull
  · cases h
    exact hdrop _ (by decide) htrue
  · cases h
    exact hdrop _ (by decide) hfalse
  · exact number_length h

/-- Whatever is read takes something off the text. -/
theorem parse_length (fuel : Nat) :
    (∀ depth s v rest, parseValue fuel depth s = some (v, rest) → rest.length < s.length) ∧
    (∀ depth s vs rest, parseItems fuel depth s = some (vs, rest) → rest.length < s.length) ∧
    ∀ depth s ms rest, parseMembers fuel depth s = some (ms, rest) → rest.length < s.length := by
  induction fuel with
  | zero => 
    refine ⟨fun _ _ _ _ h => ?_, fun _ _ _ _ h => ?_, fun _ _ _ _ h => ?_⟩
    · rw [parseValue] at h
      cases h
    · rw [parseItems] at h
      cases h
    · rw [parseMembers] at h
      cases h
  | succ fuel ih =>
    obtain ⟨hvalue, hitems, hmembers⟩ := ih
    refine ⟨fun depth s v rest h => ?_, fun depth s vs rest h => ?_, fun depth s ms rest h => ?_⟩
    · have hskip := skipSpace_length s
      rw [parseValue] at h
      split at h
      · cases h
      · rename_i c cs hs
        rw [hs] at hskip
        have hlt : cs.length < s.length := Nat.lt_of_succ_le hskip
        split_ifs at h
        · obtain ⟨⟨t, r⟩, hbody, heq⟩ := Option.map_eq_some_iff.mp h
          cases heq
          exact (stringBody_length hbody).trans hlt
        · split at h
          · cases h
          · split at h
            · rename_i r hafter
              cases h
              exact (after_length hafter).trans hlt
            · obtain ⟨⟨ms, r⟩, hms, heq⟩ := Option.map_eq_some_iff.mp h
              cases heq
              exact (hmembers _ _ _ _ hms).trans hlt
        · split at h
          · cases h
          · split at h
            · rename_i r hafter
              cases h
              exact (after_length hafter).trans hlt
            · obtain ⟨⟨vs, r⟩, hvs, heq⟩ := Option.map_eq_some_iff.mp h
              cases heq
              exact (hitems _ _ _ _ hvs).trans hlt
        · exact (scalar_length h).trans_le hskip
    · rw [parseItems] at h
      obtain ⟨⟨v, s₁⟩, hv, h⟩ := Option.bind_eq_some_iff.mp h
      have h₁ := hvalue _ _ _ _ hv
      dsimp only at h
      split at h
      · rename_i s₂ hafter
        obtain ⟨⟨vs', r⟩, hvs, heq⟩ := Option.map_eq_some_iff.mp h
        cases heq
        exact ((hitems _ _ _ _ hvs).trans (after_length hafter)).trans h₁
      · obtain ⟨r, hafter, heq⟩ := Option.map_eq_some_iff.mp h
        cases heq
        exact (after_length hafter).trans h₁
    · rw [parseMembers] at h
      obtain ⟨s₁, h₁, h⟩ := Option.bind_eq_some_iff.mp h
      obtain ⟨⟨key, s₂⟩, h₂, h⟩ := Option.bind_eq_some_iff.mp h
      obtain ⟨s₃, h₃, h⟩ := Option.bind_eq_some_iff.mp h
      obtain ⟨⟨v, s₄⟩, h₄, h⟩ := Option.bind_eq_some_iff.mp h
      have hlt : s₄.length < s.length :=
        ((hvalue _ _ _ _ h₄).trans (after_length h₃)).trans
          ((stringBody_length h₂).trans (after_length h₁))
      dsimp only at h
      split at h
      · rename_i s₅ hafter
        obtain ⟨⟨ms', r⟩, hms, heq⟩ := Option.map_eq_some_iff.mp h
        cases heq
        exact ((hmembers _ _ _ _ hms).trans (after_length hafter)).trans hlt
      · obtain ⟨r, hafter, heq⟩ := Option.map_eq_some_iff.mp h
        cases heq
        exact (after_length hafter).trans hlt

/-- More fuel than twice the length changes nothing. -/
theorem parse_fuel (fuel : Nat) :
    (∀ m depth s, 2 * s.length + 1 ≤ fuel → fuel ≤ m →
      parseValue m depth s = parseValue fuel depth s) ∧
    (∀ m depth s, 2 * s.length + 2 ≤ fuel → fuel ≤ m →
      parseItems m depth s = parseItems fuel depth s) ∧
    ∀ m depth s, 2 * s.length + 2 ≤ fuel → fuel ≤ m →
      parseMembers m depth s = parseMembers fuel depth s := by
  induction fuel with
  | zero => exact ⟨fun _ _ _ h => by omega, fun _ _ _ h => by omega, fun _ _ _ h => by omega⟩
  | succ fuel ih =>
    obtain ⟨hvalue, hitems, hmembers⟩ := ih
    refine ⟨fun m depth s hs hm => ?_, fun m depth s hs hm => ?_, fun m depth s hs hm => ?_⟩
    all_goals obtain ⟨m, rfl⟩ : ∃ k, m = k + 1 := ⟨m - 1, by omega⟩
    · have hskip := skipSpace_length s
      rw [parseValue, parseValue]
      cases hcs : skipSpace s with
      | nil => rfl
      | cons c cs =>
        rw [hcs, List.length_cons] at hskip
        have hms : ∀ depth, parseMembers m depth cs = parseMembers fuel depth cs :=
          fun depth => hmembers m depth cs (by omega) (by omega)
        have his : ∀ depth, parseItems m depth cs = parseItems fuel depth cs :=
          fun depth => hitems m depth cs (by omega) (by omega)
        simp only [hms, his]
    · rw [parseItems, parseItems, hvalue m depth s (by omega) (by omega)]
      refine Option.bind_congr fun ⟨v, s₁⟩ hv => ?_
      have h₁ := (parse_length fuel).1 _ _ _ _ hv
      dsimp only
      cases h₂ : after 44 s₁ with
      | none => rfl
      | some s₂ =>
        have := after_length h₂
        simp only [hitems m depth s₂ (by omega) (by omega)]
    · rw [parseMembers, parseMembers]
      refine Option.bind_congr fun s₁ h₁ => Option.bind_congr fun ⟨key, s₂⟩ h₂ =>
        Option.bind_congr fun s₃ h₃ => ?_
      have h₁₂ := after_length h₁
      have h₂₃ := stringBody_length h₂
      have h₃₄ := after_length h₃
      dsimp only
      rw [hvalue m depth s₃ (by omega) (by omega)]
      refine Option.bind_congr fun ⟨v, s₄⟩ h₄ => ?_
      have h₄₅ := (parse_length fuel).1 _ _ _ _ h₄
      dsimp only
      cases h₅ : after 44 s₄ with
      | none => rfl
      | some s₅ =>
        have := after_length h₅
        simp only [hmembers m depth s₅ (by omega) (by omega)]

/-! ## Objects that are written -/

/-- Members of an object, given by their keys and the texts of their values. -/
def membersText : List (Str × Str) → Str
  | [] => []
  | [(key, text)] => appendString key ++ [58] ++ text
  | (key, text) :: m :: rest => appendString key ++ [58] ++ text ++ [44] ++ membersText (m :: rest)

def objectText (members : List (Str × Str)) : Str := [123] ++ membersText members ++ [125]

/-- The text is read as the value, whatever stands behind it. -/
def Parses (depth : Nat) (text : Str) (v : Value) : Prop :=
  ∀ fuel rest, 2 * text.length + 1 ≤ fuel →
    parseValue fuel depth (text ++ rest) = some (v, rest)

theorem after_self {b : UInt8} (h : isSpace b = false) (cs : Str) :
    after b (b :: cs) = some cs := by
  simp [after, skipSpace, h]

theorem after_of_ne {b c : UInt8} (h : isSpace c = false) (hne : c ≠ b) (cs : Str) :
    after b (c :: cs) = none := by
  simp [after, skipSpace, h, hne]

theorem stringBody_quote (s rest : Str) :
    stringBody (quote s ++ quoteMark :: rest) = some (repair s, rest) := by
  rw [stringBody, scanString_quote]
  simp only [Option.bind_eq_bind, Option.bind_some, unquote_quote]
  rfl

theorem appendString_append (s rest : Str) :
    appendString s ++ rest = quoteMark :: (quote s ++ quoteMark :: rest) := by
  simp [appendString]

theorem parses_string (depth : Nat) (s : Str) :
    Parses depth (appendString s) (.str (repair s)) := by
  intro fuel rest hfuel
  obtain ⟨n, rfl⟩ : ∃ n, fuel = n + 1 := ⟨fuel - 1, by omega⟩
  have hspace : isSpace quoteMark = false := by decide
  rw [appendString_append, parseValue]
  simp only [skipSpace, List.dropWhile_cons, hspace, Bool.false_eq_true, if_false, if_true,
    stringBody_quote, Option.map_some]

theorem parses_bool (depth : Nat) (b : Bool) :
    Parses depth (str (if b then "true" else "false")) (.bool b) := by
  intro fuel rest hfuel
  obtain ⟨n, rfl⟩ : ∃ n, fuel = n + 1 := ⟨fuel - 1, by omega⟩
  rw [parseValue]
  cases b with
  | true => rfl
  | false => rfl

/-- One member of an object is read. -/
theorem parseMembers_member {depth n : Nat} {text : Str} {v : Value} (h : Parses depth text v)
    (key rest : Str) (hn : 2 * text.length + 1 ≤ n) :
    parseMembers (n + 1) depth (appendString key ++ [58] ++ text ++ rest) =
      match after 44 rest with
      | some s => (parseMembers n depth s).map fun (ms, rest) => ((repair key, v) :: ms, rest)
      | none => (after 125 rest).map fun rest => ([(repair key, v)], rest) := by
  have hquote : isSpace quoteMark = false := by decide
  have hcolon : isSpace 58 = false := by decide
  have htext : appendString key ++ [58] ++ text ++ rest =
      quoteMark :: (quote key ++ quoteMark :: (58 :: (text ++ rest))) := by
    simp [appendString]
  rw [htext, parseMembers]
  simp only [after_self hquote, stringBody_quote, after_self hcolon, h n rest hn,
    Option.bind_eq_bind, Option.bind_some]

theorem parseMembers_membersText {depth : Nat} {members : List (Str × Str × Value)}
    (hne : members ≠ []) (h : ∀ m ∈ members, Parses depth m.2.1 m.2.2) (rest : Str) (fuel : Nat)
    (hfuel : 2 * (membersText (members.map fun m => (m.1, m.2.1))).length + 2 ≤ fuel) :
    parseMembers fuel depth (membersText (members.map fun m => (m.1, m.2.1)) ++ 125 :: rest) =
      some (members.map fun m => (repair m.1, m.2.2), rest) := by
  have hbrace : isSpace 125 = false := by decide
  have hcomma : isSpace 44 = false := by decide
  induction members generalizing fuel with
  | nil => exact absurd rfl hne
  | cons m members ih =>
    obtain ⟨n, rfl⟩ : ∃ n, fuel = n + 1 := ⟨fuel - 1, by omega⟩
    have hm := h m List.mem_cons_self
    cases members with
    | nil =>
      simp only [List.map_cons, List.map_nil, membersText, List.length_append,
        List.length_singleton] at hfuel ⊢
      rw [parseMembers_member hm _ _ (by omega), after_of_ne hbrace (by decide),
        after_self hbrace]
      rfl
    | cons m' members =>
      simp only [List.map_cons, membersText, List.length_append, List.length_singleton] at hfuel ⊢
      have hrest := ih (by simp) (fun x hx => h x (List.mem_cons_of_mem _ hx)) n
        (by simp only [List.map_cons]; omega)
      rw [List.append_assoc, List.append_assoc (_ ++ _ ++ _), List.singleton_append,
        parseMembers_member hm _ _ (by omega), after_self hcomma]
      simp only [List.map_cons] at hrest
      simp only [hrest, Option.map_some]

/-- **An object is read back member by member.** -/
theorem parses_objectText {depth : Nat} {members : List (Str × Str × Value)}
    (h : ∀ m ∈ members, Parses depth m.2.1 m.2.2) :
    Parses (depth + 1) (objectText (members.map fun m => (m.1, m.2.1)))
      (.obj (members.map fun m => (repair m.1, m.2.2))) := by
  intro fuel rest hfuel
  obtain ⟨n, rfl⟩ : ∃ n, fuel = n + 1 := ⟨fuel - 1, by omega⟩
  have hbrace : isSpace 125 = false := by decide
  have hopen : isSpace 123 = false := by decide
  have hquote : isSpace quoteMark = false := by decide
  have hne : (123 : UInt8) ≠ quoteMark := by decide
  have htext : objectText (members.map fun m => (m.1, m.2.1)) ++ rest =
      123 :: (membersText (members.map fun m => (m.1, m.2.1)) ++ 125 :: rest) := by
    simp [objectText]
  rw [htext, parseValue]
  simp only [skipSpace, List.dropWhile_cons, hopen, Bool.false_eq_true, if_false, if_neg hne,
    true_or, if_true]
  cases members with
  | nil =>
    rw [show membersText _ ++ 125 :: rest = 125 :: rest from rfl, after_self hbrace]
    rfl
  | cons m members =>
    have hfirst : ∃ cs, membersText ((m :: members).map fun m => (m.1, m.2.1)) ++ 125 :: rest =
        quoteMark :: cs := by
      cases members <;> exact ⟨_, rfl⟩
    obtain ⟨cs, hcs⟩ := hfirst
    have hlen : (objectText ((m :: members).map fun m => (m.1, m.2.1))).length =
        (membersText ((m :: members).map fun m => (m.1, m.2.1))).length + 2 := by
      simp [objectText]
    have hmembers := parseMembers_membersText (by simp) h rest n (by omega)
    rw [hcs] at hmembers ⊢
    rw [after_of_ne hquote (by decide)]
    simp only [hmembers, Option.map_some]

theorem parse_of_parses {text : Str} {v : Value} (h : Parses maxDepth text v) :
    parse text = some v := by
  have hvalue := h (2 * text.length + 1) [] le_rfl
  rw [List.append_nil] at hvalue
  rw [parse, hvalue]
  rfl

/-! ## Maps -/

section Map

variable {α : Type}

/-- The entries of a map, in the order of their keys. -/
def entries (keys : Finset Str) (m : Str → Option α) : List (Str × α) :=
  (sorted keys).filterMap fun k => (m k).map fun v => (k, v)

/-- A map whose keys are among these, as it is written. -/
def mapText (keys : Finset Str) (m : Str → Option α) (render : α → Str) : Str :=
  objectText ((entries keys m).map fun (k, v) => (k, render v))

/-- The members of an object are put into a map one after the other. -/
def store (members : List (Str × Value)) (read : Value → α) (m : Str → Option α) : Str → Option α :=
  members.foldl (fun m (k, v) => Function.update m k (some (read v))) m

theorem parses_mapText {depth : Nat} {render : α → Str} {value : α → Value}
    (h : ∀ a, Parses depth (render a) (value a)) (keys : Finset Str) (m : Str → Option α) :
    Parses (depth + 1) (mapText keys m render)
      (.obj ((entries keys m).map fun (k, v) => (repair k, value v))) := by
  have hmembers : ∀ x ∈ (entries keys m).map (fun (k, v) => (k, render v, value v)),
      Parses depth x.2.1 x.2.2 := by
    intro x hx
    obtain ⟨⟨k, v⟩, _, rfl⟩ := List.mem_map.mp hx
    exact h v
  simpa only [mapText, List.map_map, Function.comp_def] using parses_objectText hmembers

theorem mem_entries {keys : Finset Str} {m : Str → Option α} {k : Str} {v : α} :
    (k, v) ∈ entries keys m ↔ k ∈ keys ∧ m k = some v := by
  simp only [entries, List.mem_filterMap, mem_sorted, Option.map_eq_some_iff, Prod.mk.injEq]
  constructor
  · rintro ⟨k', hk', v', hv', rfl, rfl⟩
    exact ⟨hk', hv'⟩
  · rintro ⟨hk, hv⟩
    exact ⟨k, hk, v, hv, rfl, rfl⟩

/-- Storing changes the keys of the members, each to the value that comes last. -/
theorem store_apply (members : List (Str × Value)) (read : Value → α) (m : Str → Option α)
    (key : Str) :
    (∀ v, (key, v) ∉ members) ∧ store members read m key = m key ∨
      ∃ v, (key, v) ∈ members ∧ store members read m key = some (read v) := by
  induction members using List.reverseRecOn with
  | nil => exact Or.inl ⟨fun v => List.not_mem_nil, rfl⟩
  | append_singleton members x ih =>
    obtain ⟨k, v⟩ := x
    have hlast : store (members ++ [(k, v)]) read m =
        Function.update (store members read m) k (some (read v)) := by
      simp [store]
    rw [hlast]
    by_cases hk : key = k
    · subst hk
      exact Or.inr ⟨v, by simp, Function.update_self _ _ _⟩
    · rw [Function.update_of_ne hk]
      rcases ih with ⟨hnone, hsame⟩ | ⟨v', hv', hstored⟩
      · exact Or.inl ⟨fun v' => by simp [hnone v', hk], hsame⟩
      · exact Or.inr ⟨v', List.mem_append_left _ hv', hstored⟩

/-- **A map is read back** from any object with its members, each once or more, in any order. -/
theorem store_members (value : α → Value) {m : Str → Option α} {f : α → α} {read : Value → α}
    {members : List (Str × Value)} (hread : ∀ a, read (value a) = f a)
    (hmem : ∀ k v, (k, v) ∈ members ↔ ∃ a, m k = some a ∧ v = value a) :
    store members read (fun _ => none) = fun k => (m k).map f := by
  funext k
  rcases store_apply members read (fun _ => none) k with ⟨hnone, hk⟩ | ⟨v, hv, hk⟩
  · rw [hk]
    cases hm : m k with
    | none => rfl
    | some a => exact absurd ((hmem k _).mpr ⟨a, hm, rfl⟩) (hnone _)
  · obtain ⟨a, ha, rfl⟩ := (hmem k v).mp hv
    rw [hk, ha, hread]
    rfl

/-- The members that a map is written with, if its keys are valid. -/
theorem mem_repaired_entries (value : α → Value) {keys : Finset Str} {m : Str → Option α}
    (hvalid : ∀ k ∈ keys, ValidUtf8 k) (hkeys : ∀ k, m k ≠ none → k ∈ keys) (k : Str) (v : Value) :
    (k, v) ∈ (entries keys m).map (fun (k, a) => (repair k, value a)) ↔
      ∃ a, m k = some a ∧ v = value a := by
  constructor
  · intro h
    obtain ⟨⟨k', a⟩, hmem, heq⟩ := List.mem_map.mp h
    obtain ⟨hk', ha⟩ := mem_entries.mp hmem
    obtain ⟨rfl, rfl⟩ := Prod.mk.inj heq
    rw [hvalid k' hk']
    exact ⟨a, ha, rfl⟩
  · rintro ⟨a, ha, rfl⟩
    have hk := hkeys k (by simp [ha])
    exact List.mem_map.mpr ⟨(k, a), mem_entries.mpr ⟨hk, ha⟩, congrArg (·, value a) (hvalid k hk)⟩

end Map

end FileEngine.Go.Json
