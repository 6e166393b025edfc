import FileEngine.Go.Strings

/-!
# Formatted time

What `time.Now().UTC().Format("20060102T150405.000000000Z07:00")` of the package `time`
returns: year, month, day, a `T`, hour, minute, second, the nanoseconds after a dot, and
`Z` for UTC. A time is the number of nanoseconds since 1970.

Two times have the same string only if they are the same nanosecond
(`formatTime_injective`): every field is read back from its digits, and all fields but
the year have a fixed width.
-/

namespace FileEngine.Go

/-! ## Decimal numbers -/

/-- The decimal digits of a number, none for zero. -/
def decimal : (fuel : Nat) → Nat → Str
  | 0, _ => []
  | fuel + 1, x => if x = 0 then [] else decimal fuel (x / 10) ++ [UInt8.ofNat (48 + x % 10)]

/-- `appendInt`: a number with leading zeros up to a width. -/
def appendInt (x width : Nat) : Str :=
  let ds := decimal x x
  List.replicate (width - ds.length) 48 ++ ds

/-- `%d`. -/
def formatInt (x : Int) : Str :=
  if x < 0 then 45 :: appendInt x.natAbs 1 else appendInt x.natAbs 1

/-- The number that a string of digits denotes. -/
def digitsValue (s : Str) : Nat := s.foldl (fun n c => 10 * n + (c.toNat - 48)) 0

theorem digitsValue_concat (s : Str) (c : UInt8) :
    digitsValue (s ++ [c]) = 10 * digitsValue s + (c.toNat - 48) := by
  simp [digitsValue]

theorem toNat_digit (x : Nat) : (UInt8.ofNat (48 + x % 10)).toNat - 48 = x % 10 := by
  rw [UInt8.toNat_ofNat', Nat.mod_eq_of_lt (by omega)]
  omega

theorem digitsValue_decimal {fuel x : Nat} (h : x ≤ fuel) : digitsValue (decimal fuel x) = x := by
  induction fuel generalizing x with
  | zero =>
    obtain rfl := Nat.le_zero.mp h
    rfl
  | succ fuel ih =>
    unfold decimal
    split
    · rename_i hx
      exact hx.symm
    · rw [digitsValue_concat, ih (by omega), toNat_digit]
      omega

theorem digitsValue_zeros (n : Nat) (s : Str) :
    digitsValue (List.replicate n 48 ++ s) = digitsValue s := by
  induction n with
  | zero => rfl
  | succ n ih =>
    rw [List.replicate_succ, List.cons_append]
    exact ih

theorem digitsValue_appendInt (x width : Nat) : digitsValue (appendInt x width) = x := by
  unfold appendInt
  rw [digitsValue_zeros, digitsValue_decimal le_rfl]

theorem length_decimal (fuel : Nat) {x width : Nat} (h : x < 10 ^ width) :
    (decimal fuel x).length ≤ width := by
  induction fuel generalizing x width with
  | zero => exact Nat.zero_le _
  | succ fuel ih =>
    unfold decimal
    split
    · exact Nat.zero_le _
    · cases width with
      | zero => omega
      | succ width =>
        have hdiv : x / 10 < 10 ^ width := by
          rw [Nat.div_lt_iff_lt_mul (by omega)]
          exact h
        have := ih hdiv
        simp only [List.length_append, List.length_singleton]
        omega

theorem length_appendInt {x width : Nat} (h : x < 10 ^ width) :
    (appendInt x width).length = width := by
  have := length_decimal x h
  simp only [appendInt, List.length_append, List.length_replicate]
  omega

/-! ## Dates -/

def isLeap (year : Nat) : Bool := year % 4 = 0 ∧ (year % 100 ≠ 0 ∨ year % 400 = 0)

def yearDays (year : Nat) : Nat := if isLeap year then 366 else 365

/-- The lengths of the months. -/
def monthDays (year : Nat) : List Nat :=
  [31, if isLeap year then 29 else 28, 31, 30, 31, 30, 31, 31, 30, 31, 30, 31]

/-- Days to full years since 1970 and days. -/
def splitYears : (fuel : Nat) → (years days : Nat) → Nat × Nat
  | 0, years, days => (years, days)
  | fuel + 1, years, days =>
      if days < yearDays (1970 + years) then (years, days)
      else splitYears fuel (years + 1) (days - yearDays (1970 + years))

/-- Days to full months and days. -/
def splitMonths : List Nat → (days : Nat) → Nat × Nat
  | [], days => (0, days)
  | len :: lens, days =>
      if days < len then (0, days)
      else
        let (months, days) := splitMonths lens (days - len)
        (months + 1, days)

/-- Year, month and day of a number of days since 1970. -/
def dateOf (days : Nat) : Nat × Nat × Nat :=
  let (years, days) := splitYears days 0 days
  let (months, days) := splitMonths (monthDays (1970 + years)) days
  (1970 + years, months + 1, days + 1)

/-- The days before a year. -/
def daysBefore : Nat → Nat
  | 0 => 0
  | years + 1 => daysBefore years + yearDays (1970 + years)

def totalDays : List Nat → Nat
  | [] => 0
  | n :: ns => n + totalDays ns

theorem totalDays_monthDays (year : Nat) : totalDays (monthDays year) = yearDays year := by
  unfold monthDays yearDays
  split <;> rfl

theorem splitYears_spec (fuel years days : Nat) :
    daysBefore (splitYears fuel years days).1 + (splitYears fuel years days).2 =
        daysBefore years + days ∧
      (days ≤ fuel → (splitYears fuel years days).2 <
        yearDays (1970 + (splitYears fuel years days).1)) := by
  have hpos : ∀ year, 365 ≤ yearDays year := by
    intro year
    unfold yearDays
    split <;> omega
  induction fuel generalizing years days with
  | zero =>
    refine ⟨rfl, fun h => ?_⟩
    have := hpos (1970 + years)
    simp only [splitYears]
    omega
  | succ fuel ih =>
    unfold splitYears
    split
    · rename_i h
      exact ⟨rfl, fun _ => h⟩
    · obtain ⟨heq, hlt⟩ := ih (years + 1) (days - yearDays (1970 + years))
      have := hpos (1970 + years)
      refine ⟨heq.trans ?_, fun h => hlt (by omega)⟩
      simp only [daysBefore]
      omega

theorem splitMonths_spec (lens : List Nat) (days : Nat) :
    totalDays (lens.take (splitMonths lens days).1) + (splitMonths lens days).2 = days ∧
      (splitMonths lens days).1 ≤ lens.length ∧
      ∀ bound, (∀ len ∈ lens, len ≤ bound) → days < totalDays lens →
        (splitMonths lens days).2 < bound := by
  induction lens generalizing days with
  | nil =>
    exact ⟨by simp [splitMonths, totalDays], le_rfl, fun _ _ h => absurd h (Nat.not_lt_zero _)⟩
  | cons len lens ih =>
    unfold splitMonths
    split
    · rename_i h
      refine ⟨by simp [totalDays], Nat.zero_le _, fun bound hlens _ => ?_⟩
      exact lt_of_lt_of_le h (hlens len List.mem_cons_self)
    · obtain ⟨heq, hle, hlt⟩ := ih (days - len)
      refine ⟨?_, by simpa using hle, fun bound hlens h => ?_⟩
      · simp only [List.take_succ_cons, totalDays]
        omega
      · refine hlt bound (fun l hl => hlens l (List.mem_cons_of_mem _ hl)) ?_
        simp only [totalDays] at h
        omega

theorem dateOf_bounds (days : Nat) : (dateOf days).2.1 < 100 ∧ (dateOf days).2.2 < 100 := by
  have hyear := (splitYears_spec days 0 days).2 le_rfl
  obtain ⟨_, hmonth, hday⟩ := splitMonths_spec (monthDays (1970 + (splitYears days 0 days).1))
    (splitYears days 0 days).2
  have hlens : ∀ len ∈ monthDays (1970 + (splitYears days 0 days).1), len ≤ 31 := by
    unfold monthDays
    split <;> decide
  have hlt := hday 31 hlens (by rw [totalDays_monthDays]; exact hyear)
  have hlen : (monthDays (1970 + (splitYears days 0 days).1)).length = 12 := rfl
  rw [hlen] at hmonth
  simp only [dateOf]
  omega

theorem dateOf_injective : Function.Injective dateOf := by
  intro a b h
  simp only [dateOf, Prod.mk.injEq, Nat.add_right_cancel_iff, Nat.add_left_cancel_iff] at h
  obtain ⟨hyear, hmonth, hday⟩ := h
  have ha := (splitMonths_spec (monthDays (1970 + (splitYears a 0 a).1)) (splitYears a 0 a).2).1
  have hb := (splitMonths_spec (monthDays (1970 + (splitYears b 0 b).1)) (splitYears b 0 b).2).1
  rw [hmonth, hday, hyear] at ha
  have hrest : (splitYears a 0 a).2 = (splitYears b 0 b).2 := ha.symm.trans hb
  have hdays := (splitYears_spec a 0 a).1
  rw [hyear, hrest, (splitYears_spec b 0 b).1] at hdays
  simpa [daysBefore] using hdays.symm

/-! ## The layout -/

/-- What follows the year. -/
def afterYear (month day now : Nat) : Str :=
  let secs := now / 1000000000
  appendInt month 2 ++ (appendInt day 2 ++ (str "T" ++ (appendInt (secs / 3600 % 24) 2 ++
    (appendInt (secs / 60 % 60) 2 ++ (appendInt (secs % 60) 2 ++ (str "." ++
      (appendInt (now % 1000000000) 9 ++ str "Z")))))))

def formatTime (now : Nat) : Str :=
  let (year, month, day) := dateOf (now / 1000000000 / 86400)
  appendInt year 4 ++ afterYear month day now

example : formatTime 0 = str "19700101T000000.000000000Z" := by decide

/-- Two fields of one width: they denote the same number, and what follows is the same. -/
theorem appendInt_append_inj {x y width : Nat} {s t : Str} (hx : x < 10 ^ width)
    (hy : y < 10 ^ width) (h : appendInt x width ++ s = appendInt y width ++ t) :
    x = y ∧ s = t := by
  obtain ⟨hxy, hst⟩ := List.append_inj h (by rw [length_appendInt hx, length_appendInt hy])
  refine ⟨?_, hst⟩
  rw [← digitsValue_appendInt x width, hxy, digitsValue_appendInt]

/-- The fields of a time of day have their widths. -/
theorem fields_lt (now : Nat) : now / 1000000000 / 3600 % 24 < 10 ^ 2 ∧
    now / 1000000000 / 60 % 60 < 10 ^ 2 ∧ now / 1000000000 % 60 < 10 ^ 2 ∧
    now % 1000000000 < 10 ^ 9 := by
  omega

theorem length_afterYear {month day : Nat} (hm : month < 10 ^ 2) (hd : day < 10 ^ 2) (now : Nat) :
    (afterYear month day now).length = 22 := by
  obtain ⟨hhour, hminute, hsecond, hnano⟩ := fields_lt now
  simp only [afterYear, List.length_append, length_appendInt hm, length_appendInt hd,
    length_appendInt hhour, length_appendInt hminute, length_appendInt hsecond,
    length_appendInt hnano]
  rfl

/-- The month, the day and the time of the day can be read back. -/
theorem afterYear_inj {month day month' day' a b : Nat} (hm : month < 10 ^ 2) (hd : day < 10 ^ 2)
    (hm' : month' < 10 ^ 2) (hd' : day' < 10 ^ 2)
    (h : afterYear month day a = afterYear month' day' b) :
    month = month' ∧ day = day' ∧ a / 1000000000 % 86400 = b / 1000000000 % 86400 ∧
      a % 1000000000 = b % 1000000000 := by
  obtain ⟨hha, hia, hsa, hna⟩ := fields_lt a
  obtain ⟨hhb, hib, hsb, hnb⟩ := fields_lt b
  unfold afterYear at h
  obtain ⟨hmonth, h₁⟩ := appendInt_append_inj hm hm' h
  obtain ⟨hday, h₂⟩ := appendInt_append_inj hd hd' h₁
  obtain ⟨hhour, h₃⟩ := appendInt_append_inj hha hhb (List.append_cancel_left h₂)
  obtain ⟨hminute, h₄⟩ := appendInt_append_inj hia hib h₃
  obtain ⟨hsecond, h₅⟩ := appendInt_append_inj hsa hsb h₄
  obtain ⟨hnano, _⟩ := appendInt_append_inj hna hnb (List.append_cancel_left h₅)
  refine ⟨hmonth, hday, ?_, hnano⟩
  omega

theorem formatTime_eq (now : Nat) :
    formatTime now = appendInt (dateOf (now / 1000000000 / 86400)).1 4 ++
      afterYear (dateOf (now / 1000000000 / 86400)).2.1 (dateOf (now / 1000000000 / 86400)).2.2
        now := rfl

/-- Two times with one string are the same nanosecond. -/
theorem formatTime_injective : Function.Injective formatTime := by
  intro a b h
  obtain ⟨hma, hda⟩ := dateOf_bounds (a / 1000000000 / 86400)
  obtain ⟨hmb, hdb⟩ := dateOf_bounds (b / 1000000000 / 86400)
  rw [formatTime_eq, formatTime_eq] at h
  -- the year has no fixed width, but what follows it has
  obtain ⟨hyear, hrest⟩ := List.append_inj' h
    (by rw [length_afterYear hma hda, length_afterYear hmb hdb])
  obtain ⟨hmonth, hday, hsecs, hnano⟩ := afterYear_inj hma hda hmb hdb hrest
  have hdate : a / 1000000000 / 86400 = b / 1000000000 / 86400 := by
    refine dateOf_injective (Prod.ext ?_ (Prod.ext hmonth hday))
    have hread := congrArg digitsValue hyear
    rwa [digitsValue_appendInt, digitsValue_appendInt] at hread
  omega

end FileEngine.Go
