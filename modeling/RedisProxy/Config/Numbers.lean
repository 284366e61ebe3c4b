/-
  File:      RedisProxy/Config/Numbers.lean
  Subject:   `ParseSize` and `ParseInt` (src/config.cpp), and on which strings they read decimal
             numbers as such.

  Both leave the reading to the C library and look only at where it stopped. The library skips
  white space, takes a sign, negates modulo 2^64, saturates, and stops at a zero byte, so they
  accept more than decimal numbers. `numbers_exact_iff` says on which strings exactly this shows.

  * `subject` -- the parts `strtoull` and `strtol` cut a string into;
  * `Numeral` -- the strings they read to the end;
  * `SizeExact`, `IntExact` -- a setting is read by its decimal grammar;
  * `SizeMisread`, `IntMisread` -- the strings on which it is not.
-/
import RedisProxy.Buffer.IoBuffer
import Mathlib.Algebra.Group.Int.Defs
import Mathlib.Data.List.TakeWhile

namespace RedisProxy

/-! ## 1. The C library -/

/-- `isspace` in the C locale. -/
def isSpace (c : UInt8) : Bool := c == 32 || (9 ≤ c && c ≤ 13)

def isDigit (c : UInt8) : Bool := 48 ≤ c && c ≤ 57

/-- The value of a sequence of digits. -/
def decimal (digits : Bytes) : Nat := digits.foldl (fun n c => 10 * n + (c.toNat - 48)) 0

/-- The string `c_str()` shows: it ends at the first zero byte. -/
def cString (v : Bytes) : Bytes := v.takeWhile (· ≠ 0)

/-- What `strtoull` and `strtol` cut a string into. -/
structure Subject where
  space : Bytes
  sign : Bytes
  digits : Bytes
  rest : Bytes

def signOf : Bytes → Bytes
  | c :: _ => if c = 43 ∨ c = 45 then [c] else []
  | [] => []

def subject (s : Bytes) : Subject :=
  let t := s.dropWhile isSpace
  let u := t.drop (signOf t).length
  ⟨s.takeWhile isSpace, signOf t, u.takeWhile isDigit, u.dropWhile isDigit⟩

/-- The common part of `strtoull` and `strtol`: the value, and the string from `*end` on, which is
    the whole string when there are no digits. -/
def strto {α : Type} (zero : α) (value : Bytes → Nat → α) (s : Bytes) : α × Bytes :=
  let x := subject s
  if x.digits = [] then (zero, s) else (value x.sign (decimal x.digits), x.rest)

/-- The `unsigned long long` of a number with its sign: negation modulo 2^64, `ULLONG_MAX` for
    what is too large. -/
def unsignedValue (sign : Bytes) (m : Nat) : Nat :=
  if 2 ^ 64 ≤ m then 2 ^ 64 - 1 else if sign = [45] then (2 ^ 64 - m) % 2 ^ 64 else m

/-- The `long` of a number with its sign: `LONG_MIN` or `LONG_MAX` for what does not fit. -/
def signedValue (sign : Bytes) (m : Nat) : Int :=
  if sign = [45] then if 2 ^ 63 < m then -2 ^ 63 else -m
  else if 2 ^ 63 ≤ m then 2 ^ 63 - 1 else m

/-- `strtoull(s, &end, 10)`. -/
def strtoull (s : Bytes) : Nat × Bytes := strto 0 unsignedValue s

/-- `strtol(s, &end, 10)`. -/
def strtol (s : Bytes) : Int × Bytes := strto 0 signedValue s

/-! ## 2. The two functions -/

/-- `ParseSize`: the answer and `*out`. -/
def parseSize (value : Bytes) (out : Nat) : Bool × Nat :=
  let x := strtoull (cString value)
  if x.2 ≠ [] then (false, out) else (true, x.1)

/-- `ParseInt`: the answer and `*out`. -/
def parseInt (value : Bytes) (out : Int) : Bool × Int :=
  let x := strtol (cString value)
  if x.2 ≠ [] ∨ x.1 < 0 ∨ 1000000 < x.1 then (false, out) else (true, x.1)

/-! ## 3. What is read to the end -/

/-- White space, a sign and digits, of which only the digits must be there. -/
structure Numeral (s space sign digits : Bytes) : Prop where
  parts : s = space ++ (sign ++ digits)
  spaces : ∀ c ∈ space, isSpace c = true
  signs : sign = [] ∨ sign = [43] ∨ sign = [45]
  decimals : ∀ c ∈ digits, isDigit c = true
  some : digits ≠ []

section Numeral

variable {s space sign digits : Bytes}

theorem digit_range {c : UInt8} (h : isDigit c = true) : 48 ≤ c.toNat ∧ c.toNat ≤ 57 := by
  simp only [isDigit, Bool.and_eq_true, decide_eq_true_eq, UInt8.le_iff_toNat_le] at h
  exact h

/-- Neither a digit nor a sign is white space, and no digit is a sign. -/
theorem digit_plain {c : UInt8} (h : isDigit c = true) :
    isSpace c = false ∧ c ≠ 43 ∧ c ≠ 45 ∧ c ≠ 0 := by
  have hr := digit_range h
  refine ⟨?_, ?_, ?_, ?_⟩
  · have h32 : c ≠ 32 := by
      rintro rfl
      exact absurd hr.1 (by decide)
    have h13 : ¬ c ≤ 13 := by
      rw [UInt8.le_iff_toNat_le]
      show ¬ c.toNat ≤ 13
      omega
    simp [isSpace, h32, h13]
  all_goals
    rintro rfl
    exact absurd hr.1 (by decide)

theorem signOf_digits (h : ∀ c ∈ digits, isDigit c = true) : signOf digits = [] := by
  cases digits with
  | nil => rfl
  | cons c cs =>
    obtain ⟨_, h43, h45, _⟩ := digit_plain (h c List.mem_cons_self)
    simp [signOf, h43, h45]

/-- **A numeral is cut into its parts**, and nothing is left. -/
theorem Numeral.subject (h : Numeral s space sign digits) :
    subject s = ⟨space, sign, digits, []⟩ := by
  obtain ⟨d, ds, hd⟩ := List.exists_cons_of_ne_nil h.some
  have hfirst : isDigit d = true := h.decimals d (hd ▸ List.mem_cons_self)
  -- what follows the white space does not begin with any
  have hstart : (sign ++ digits).dropWhile isSpace = sign ++ digits ∧
      (sign ++ digits).takeWhile isSpace = [] := by
    rcases h.signs with hs | hs | hs <;> rw [hs, hd]
    · simp [(digit_plain hfirst).1]
    · exact ⟨rfl, rfl⟩
    · exact ⟨rfl, rfl⟩
  have hsign : signOf (sign ++ digits) = sign := by
    rcases h.signs with hs | hs | hs <;> rw [hs]
    · exact signOf_digits h.decimals
    · rfl
    · rfl
  unfold RedisProxy.subject
  simp only [h.parts, List.dropWhile_append_of_pos h.spaces, List.takeWhile_append_of_pos h.spaces,
    hstart, hsign, List.drop_left, List.append_nil, List.takeWhile_eq_self_iff.mpr h.decimals,
    List.dropWhile_eq_nil_iff.mpr h.decimals]

theorem signOf_prefix (t : Bytes) : signOf t ++ t.drop (signOf t).length = t := by
  unfold signOf
  split
  · split <;> rfl
  · rfl

/-- The other way round: digits with nothing after them make a numeral. -/
theorem numeral_of_subject (hd : (RedisProxy.subject s).digits ≠ [])
    (hr : (RedisProxy.subject s).rest = []) :
    Numeral s (RedisProxy.subject s).space (RedisProxy.subject s).sign
      (RedisProxy.subject s).digits where
  parts := by
    simp only [RedisProxy.subject] at hr ⊢
    have hdigits := List.takeWhile_append_dropWhile (p := isDigit)
      (l := (s.dropWhile isSpace).drop (signOf (s.dropWhile isSpace)).length)
    rw [hr, List.append_nil] at hdigits
    rw [hdigits, signOf_prefix, List.takeWhile_append_dropWhile]
  spaces c hc := List.mem_takeWhile_imp hc
  signs := by
    simp only [RedisProxy.subject, signOf]
    split
    · split
      · rename_i hc
        rcases hc with rfl | rfl <;> simp
      · exact Or.inl rfl
    · exact Or.inl rfl
  decimals c hc := List.mem_takeWhile_imp hc
  some := hd

variable {α : Type} {zero : α} {value : Bytes → Nat → α}

theorem Numeral.strto (h : Numeral s space sign digits) :
    strto zero value s = (value sign (decimal digits), []) := by
  unfold RedisProxy.strto
  simp only [h.subject, h.some, if_false]

theorem strto_nil : strto zero value [] = (zero, []) := rfl

/-- What is not read to the end. -/
theorem strto_other (hs : s ≠ []) (hn : ∀ space sign digits, ¬ Numeral s space sign digits) :
    (strto zero value s).2 ≠ [] := by
  unfold RedisProxy.strto
  dsimp only
  split
  · exact hs
  · rename_i hd
    exact fun hr => hn _ _ _ (numeral_of_subject hd hr)

end Numeral

/-! ## 4. Where the decimal grammar is met -/

/-- A non-empty string of decimal digits. -/
def Decimal (v : Bytes) : Prop := v ≠ [] ∧ ∀ c ∈ v, isDigit c = true

instance (v : Bytes) : Decidable (Decimal v) := inferInstanceAs (Decidable (_ ∧ _))

/-- `ParseSize` reads `v` by the decimal grammar. -/
def SizeExact (v : Bytes) : Prop :=
  ∀ out, parseSize v out =
    if Decimal v ∧ decimal v < 2 ^ 64 then (true, decimal v) else (false, out)

/-- `ParseInt` reads `v` by the decimal grammar. -/
def IntExact (v : Bytes) : Prop :=
  ∀ out, parseInt v out =
    if Decimal v ∧ decimal v ≤ 1000000 then (true, (decimal v : Int)) else (false, out)

/-- Something besides digits stands in `v`: white space or a sign before them, or a zero byte and
    whatever follows it. -/
def Dressed (v space sign : Bytes) : Prop := space ≠ [] ∨ sign ≠ [] ∨ cString v ≠ v

/-- **The strings `ParseSize` misreads**: none at all up to the first zero byte, or a number that
    is dressed or too large. -/
def SizeMisread (v : Bytes) : Prop :=
  cString v = [] ∨ ∃ space sign digits, Numeral (cString v) space sign digits ∧
    (Dressed v space sign ∨ 2 ^ 64 ≤ decimal digits)

/-- **The strings `ParseInt` misreads**: none at all up to the first zero byte, or a dressed number
    from 0 to 1000000. -/
def IntMisread (v : Bytes) : Prop :=
  cString v = [] ∨ ∃ space sign digits, Numeral (cString v) space sign digits ∧
    Dressed v space sign ∧ decimal digits ≤ 1000000 ∧ (sign = [45] → decimal digits = 0)

section Exact

variable {v space sign digits : Bytes}

theorem Decimal.cString (h : Decimal v) : cString v = v := by
  unfold RedisProxy.cString
  rw [List.takeWhile_eq_self_iff]
  intro c hc
  exact decide_eq_true (digit_plain (h.2 c hc)).2.2.2

theorem Decimal.numeral (h : Decimal v) : Numeral (RedisProxy.cString v) [] [] v where
  parts := h.cString
  spaces := nofun
  signs := Or.inl rfl
  decimals := h.2
  some := h.1

/-- The numeral of a string of digits is bare. -/
theorem Decimal.bare (h : Decimal v) (hn : Numeral (RedisProxy.cString v) space sign digits) :
    space = [] ∧ sign = [] ∧ digits = v := by
  have hsubject := hn.subject.symm.trans h.numeral.subject
  obtain ⟨h1, h2, h3, _⟩ := Subject.mk.inj hsubject
  exact ⟨h1, h2, h3⟩

theorem Decimal.not_dressed (h : Decimal v) (hn : Numeral (RedisProxy.cString v) space sign digits) :
    ¬ Dressed v space sign := by
  obtain ⟨h1, h2, _⟩ := h.bare hn
  rintro (hd | hd | hd)
  · exact hd h1
  · exact hd h2
  · exact hd h.cString

/-- A number that is not dressed is a string of digits. -/
theorem decimal_of_bare (hn : Numeral (cString v) space sign digits)
    (hb : ¬ Dressed v space sign) : Decimal v ∧ digits = v := by
  simp only [Dressed, not_or, not_not] at hb
  obtain ⟨h1, h2, h3⟩ := hb
  have hv : v = digits := by
    have hparts := hn.parts
    rw [h3, h1, h2] at hparts
    exact hparts
  subst hv
  exact ⟨⟨hn.some, hn.decimals⟩, rfl⟩

theorem not_decimal_of_empty (h : cString v = []) : ¬ Decimal v := by
  intro hd
  rw [hd.cString] at h
  exact hd.1 h

theorem parseSize_numeral (h : Numeral (cString v) space sign digits) (out : Nat) :
    parseSize v out = (true, unsignedValue sign (decimal digits)) := by
  simp [parseSize, strtoull, h.strto]

theorem parseInt_numeral (h : Numeral (cString v) space sign digits) (out : Int) :
    parseInt v out =
      if signedValue sign (decimal digits) < 0 ∨ 1000000 < signedValue sign (decimal digits) then
        (false, out) else (true, signedValue sign (decimal digits)) := by
  simp [parseInt, strtol, h.strto]

/-- A string that is neither empty nor a number is refused, and it is not decimal. -/
theorem refused_of_other (hs : cString v ≠ [])
    (hn : ∀ space sign digits, ¬ Numeral (cString v) space sign digits) :
    (∀ out, parseSize v out = (false, out)) ∧ (∀ out, parseInt v out = (false, out)) ∧
      ¬ Decimal v := by
  refine ⟨fun out => ?_, fun out => ?_, fun hd => hn _ _ _ hd.numeral⟩
  · have hrest : (strtoull (cString v)).2 ≠ [] := strto_other hs hn
    simp [parseSize, hrest]
  · have hrest : (strtol (cString v)).2 ≠ [] := strto_other hs hn
    simp [parseInt, hrest]

theorem sizeExact_iff : SizeExact v ↔ ¬ SizeMisread v := by
  constructor
  · rintro hexact (hempty | ⟨space, sign, digits, hn, hbad⟩)
    · have hread := hexact 0
      rw [if_neg fun h => not_decimal_of_empty hempty h.1] at hread
      simp [parseSize, strtoull, hempty, strto_nil] at hread
    · have hread := hexact 0
      rw [parseSize_numeral hn, if_neg] at hread
      · cases hread
      · rintro ⟨hd, hlt⟩
        rcases hbad with hbad | hbad
        · exact hd.not_dressed hn hbad
        · rw [(hd.bare hn).2.2] at hbad
          omega
  · intro hgood out
    simp only [SizeMisread, not_or, not_exists, not_and] at hgood
    obtain ⟨hne, hgood⟩ := hgood
    by_cases hn : ∃ space sign digits, Numeral (cString v) space sign digits
    · obtain ⟨space, sign, digits, hn⟩ := hn
      obtain ⟨hbare, hlt⟩ := hgood space sign digits hn
      obtain ⟨hd, rfl⟩ := decimal_of_bare hn hbare
      have hsign := (hd.bare hn).2.1
      rw [parseSize_numeral hn, if_pos ⟨hd, by omega⟩, hsign, unsignedValue, if_neg (by omega)]
      rfl
    · simp only [not_exists] at hn
      obtain ⟨hsize, _, hnot⟩ := refused_of_other hne hn
      rw [hsize, if_neg fun h => hnot h.1]

/-- Which numbers `ParseInt` takes to be in range. -/
theorem signedValue_outside (sign : Bytes) (m : Nat) :
    (signedValue sign m < 0 ∨ 1000000 < signedValue sign m) ↔
      ¬ (m ≤ 1000000 ∧ (sign = [45] → m = 0)) := by
  unfold signedValue
  by_cases hs : sign = [45]
  · simp only [hs, if_true, true_imp_iff]
    split <;> omega
  · simp only [hs, if_false, false_imp_iff, and_true]
    split <;> omega

theorem signedValue_plain {m : Nat} (h : m ≤ 1000000) : signedValue [] m = m := by
  unfold signedValue
  rw [if_neg (by decide), if_neg (by omega)]

theorem intExact_iff : IntExact v ↔ ¬ IntMisread v := by
  constructor
  · rintro hexact (hempty | ⟨space, sign, digits, hn, hbad, hrange⟩)
    · have hread := hexact 0
      rw [if_neg fun h => not_decimal_of_empty hempty h.1] at hread
      simp [parseInt, strtol, hempty, strto_nil] at hread
    · have hread := hexact 0
      rw [parseInt_numeral hn, if_neg fun h => (signedValue_outside _ _).mp h hrange,
        if_neg fun h => h.1.not_dressed hn hbad] at hread
      cases hread
  · intro hgood out
    simp only [IntMisread, not_or, not_exists, not_and] at hgood
    obtain ⟨hne, hgood⟩ := hgood
    by_cases hn : ∃ space sign digits, Numeral (cString v) space sign digits
    · obtain ⟨space, sign, digits, hn⟩ := hn
      rw [parseInt_numeral hn]
      by_cases hbare : Dressed v space sign
      · -- a dressed number is refused because it is out of range
        rw [if_pos, if_neg fun h => h.1.not_dressed hn hbare]
        exact (signedValue_outside _ _).mpr fun h => hgood space sign digits hn hbare h.1 h.2
      · obtain ⟨hd, rfl⟩ := decimal_of_bare hn hbare
        rw [(hd.bare hn).2.1]
        by_cases hle : decimal digits ≤ 1000000
        · have hsign : ([] : Bytes) = [45] → decimal digits = 0 := nofun
          rw [if_neg fun h => (signedValue_outside _ _).mp h ⟨hle, hsign⟩, if_pos ⟨hd, hle⟩,
            signedValue_plain hle]
        · rw [if_pos ((signedValue_outside _ _).mpr fun h => hle h.1), if_neg fun h => hle h.2]
    · simp only [not_exists] at hn
      obtain ⟨_, hint, hnot⟩ := refused_of_other hne hn
      rw [hint, if_neg fun h => hnot h.1]

end Exact

/-- **A numeric setting is read by its decimal grammar exactly when it is not one of the strings
    the C library reads in its own way.** -/
theorem numbers_exact_iff (v : Bytes) :
    (SizeExact v ↔ ¬ SizeMisread v) ∧ (IntExact v ↔ ¬ IntMisread v) :=
  ⟨sizeExact_iff, intExact_iff⟩

/-- `-1` is read as the largest size there is. -/
theorem minus_one_misread : parseSize [45, 49] 0 = (true, 2 ^ 64 - 1) ∧ ¬ SizeExact [45, 49] := by
  have hread : parseSize [45, 49] 0 = (true, 2 ^ 64 - 1) := by decide
  refine ⟨hread, fun h => ?_⟩
  have hexact := h 0
  rw [hread] at hexact
  revert hexact
  decide

end RedisProxy
