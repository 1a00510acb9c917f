import Mathlib.Data.List.GetD
import Mathlib.Data.Nat.Digits.Defs
import Mathlib.Tactic.Linarith

/-!
# Numerals

`itoa` and `itoa64` of `src/lib/stdlib.c`. The strings are lists of bytes without the terminator,
and the buffers of the callers are left out. `itoa64` collects the digits in an array of 65 bytes,
and `itoa` divides as C does, towards zero. Both divide in a loop: more digits than the array holds,
and a loop that does not end, are `none`.
-/

namespace Potatos

/-- The byte of a character. -/
def chr (c : Char) : BitVec 8 := BitVec.ofNat 8 c.toNat

/-- The value of an `int` that is assigned a number. -/
def int32 (z : ℤ) : ℤ := (z + 2^31) % 2^32 - 2^31

/-- `rem` as `itoa` writes it. -/
def itoaDigit (rem : ℤ) : BitVec 8 :=
  BitVec.ofInt 8 (if rem > 9 then rem - 10 + 97 else rem + 48)

/-- The loop of `itoa`, with what it appends to the string. -/
def itoaLoop (base : ℤ) : ℕ → ℤ → Option (List (BitVec 8))
  | 0, _ => none
  | fuel + 1, value =>
    if base = 0 then none
    else
      let rem := value.tmod base
      let value := value.tdiv base
      if value ≠ 0 then (itoaLoop base fuel value).map (fun str => itoaDigit rem :: str)
      else some [itoaDigit rem]

/-- `itoa`. The string is turned around at the end, with the sign. -/
def itoa (value base : ℤ) : Option (List (BitVec 8)) := do
  let is_negative := value < 0 ∧ base = 10
  let value := if is_negative then int32 (-value) else value
  let str ← itoaLoop base 64 value
  some (if is_negative then str ++ [chr '-'] else str).reverse

/-- The string `digits` of `itoa64`. -/
def digits : List (BitVec 8) :=
  [chr '0', chr '1', chr '2', chr '3', chr '4', chr '5', chr '6', chr '7', chr '8', chr '9',
    chr 'A', chr 'B', chr 'C', chr 'D', chr 'E', chr 'F']

/-- The first loop of `itoa64`, with what it puts into `temp`. -/
def itoa64Loop (base : ℕ) : ℕ → ℕ → Option (List (BitVec 8))
  | 0, value => if value = 0 then some [] else none
  | room + 1, value =>
    if value = 0 then some []
    else if base = 0 then none
    else (itoa64Loop base room (value / base)).map
      (fun temp => digits.getD (value % base) 0 :: temp)

/-- `itoa64`. The second loop copies `temp` from its end on. -/
def itoa64 (value base : ℕ) : Option (List (BitVec 8)) :=
  if value = 0 then some [chr '0'] else (itoa64Loop base 65 value).map List.reverse

variable {base n fuel room : ℕ} {value : ℤ}

/-! ## `itoa64` -/

/-- The loop of `itoa64` writes the digits of the value. -/
theorem itoa64Loop_eq (hbase : 2 ≤ base) (hroom : n < base^room) :
    itoa64Loop base room n = some ((Nat.digits base n).map (fun d => digits.getD d 0)) := by
  induction room generalizing n with
  | zero =>
    obtain rfl : n = 0 := by rwa [pow_zero, Nat.lt_one_iff] at hroom
    rw [Nat.digits_zero]
    rfl
  | succ room ih =>
    rw [itoa64Loop]
    by_cases h0 : n = 0
    · rw [if_pos h0, h0, Nat.digits_zero]
      rfl
    · have hdiv : n / base < base^room := Nat.div_lt_of_lt_mul (by rwa [pow_succ'] at hroom)
      rw [if_neg h0, if_neg (by omega), ih hdiv,
        Nat.digits_def' (by omega : 1 < base) (by omega : 0 < n)]
      rfl

/-- `itoa64` writes the digits of a value, and one zero for zero. -/
theorem itoa64_eq (hbase : 2 ≤ base) (hn : n < 2^64) :
    itoa64 n base = some (if n = 0 then [chr '0']
      else ((Nat.digits base n).map (fun d => digits.getD d 0)).reverse) := by
  have hroom : n < base^65 :=
    calc n < 2^64 := hn
      _ ≤ 2^65 := by norm_num
      _ ≤ base^65 := Nat.pow_le_pow_left hbase 65
  unfold itoa64
  split_ifs with h0
  · rfl
  · rw [itoa64Loop_eq hbase hroom]
    rfl

/-- A numeral of `itoa64` is not empty, and has digits only. -/
theorem itoa64_digits (hbase : 2 ≤ base) (hbase' : base ≤ 16) (hn : n < 2^64) :
    ∃ str, itoa64 n base = some str ∧ str ≠ [] ∧ ∀ b ∈ str, b ∈ digits := by
  refine ⟨_, itoa64_eq hbase hn, ?_, fun b hb => ?_⟩
  · split_ifs with h0
    · exact List.cons_ne_nil _ _
    · simpa [Nat.digits_ne_nil_iff_ne_zero] using h0
  · split_ifs at hb with h0
    · obtain rfl := List.mem_singleton.mp hb
      exact List.mem_cons_self ..
    · obtain ⟨d, hd, rfl⟩ := List.mem_map.mp (List.mem_reverse.mp hb)
      have hlt := Nat.digits_lt_base (by omega : 1 < base) hd
      have hlen : d < digits.length := by
        show d < 16
        omega
      rw [List.getD_eq_getElem _ _ hlen]
      exact List.getElem_mem hlen

/-! ## `itoa` -/

/-- A number that is not zero after a division has a digit more. -/
theorem room_pos (hn : n < base^room) (h0 : n ≠ 0) : 0 < room := by
  rcases Nat.eq_zero_or_pos room with rfl | hpos
  · rw [pow_zero] at hn
    omega
  · exact hpos

/-- The loop of `itoa` ends, with a byte for each digit. -/
theorem itoaLoop_ends (hbase : 2 ≤ base) (hroom : 0 < room) (hfuel : room ≤ fuel)
    (hvalue : value.natAbs < base^room) :
    ∃ str, itoaLoop base fuel value = some str ∧ str.length ≤ room := by
  induction fuel generalizing value room with
  | zero => omega
  | succ fuel ih =>
    obtain ⟨room, rfl⟩ := Nat.exists_eq_succ_of_ne_zero (Nat.ne_of_gt hroom)
    have habs : (value.tdiv base).natAbs = value.natAbs / base := Int.natAbs_tdiv value base
    have hdiv : value.natAbs / base < base^room :=
      Nat.div_lt_of_lt_mul (by rwa [Nat.succ_eq_add_one, pow_succ'] at hvalue)
    rw [itoaLoop, if_neg (by omega)]
    dsimp only
    by_cases h0 : value.tdiv base ≠ 0
    · -- The quotient has one digit less.
      have hpos := room_pos hdiv (by rwa [← habs, Int.natAbs_ne_zero])
      obtain ⟨str, hstr, hlen⟩ := ih hpos (by omega) (by rwa [habs])
      rw [if_pos h0, hstr]
      exact ⟨_, rfl, Nat.succ_le_succ hlen⟩
    · rw [if_neg h0]
      exact ⟨_, rfl, Nat.succ_le_succ (Nat.zero_le _)⟩

/-- Up to base 10, the loop of `itoa` writes what the loop of `itoa64` writes, from a number that is
not zero. -/
theorem itoaLoop_digits (hbase : 2 ≤ base) (hbase' : base ≤ 10) (hfuel : 0 < fuel)
    (hn : n < base^fuel) (h0 : n ≠ 0) :
    itoaLoop base fuel n = some ((Nat.digits base n).map (fun d => digits.getD d 0)) := by
  induction fuel generalizing n with
  | zero => omega
  | succ fuel ih =>
    -- The table of `itoa64` has the digits where `itoa` computes them.
    have hdigit : itoaDigit ((n : ℤ).tmod base) = digits.getD (n % base) 0 := by
      have hmod : (n : ℤ).tmod base = (n % base : ℕ) := rfl
      have hall : ∀ d < 10, itoaDigit (d : ℕ) = digits.getD d 0 := by decide
      have hlt : n % base < base := Nat.mod_lt _ (by omega)
      rw [hmod]
      exact hall _ (by omega)
    have hquot : (n : ℤ).tdiv base = (n / base : ℕ) := rfl
    rw [itoaLoop, if_neg (by omega), Nat.digits_def' (by omega) (by omega : 0 < n)]
    dsimp only
    rw [hdigit, hquot]
    by_cases hdiv : n / base = 0
    · rw [hdiv, if_neg (by simp), Nat.digits_zero]
      rfl
    · have hlt : n / base < base^fuel := Nat.div_lt_of_lt_mul (by rwa [pow_succ'] at hn)
      rw [if_pos (by exact_mod_cast hdiv), ih (room_pos hlt hdiv) hlt hdiv]
      rfl

/-- With a sign, the digits of the opposite value. -/
theorem itoa_signed {base : ℤ} (h : value < 0 ∧ base = 10) :
    itoa value base =
      (itoaLoop base 64 (int32 (-value))).map (fun str => chr '-' :: str.reverse) := by
  unfold itoa
  dsimp only
  rw [if_pos h]
  cases itoaLoop base 64 (int32 (-value)) with
  | none => rfl
  | some str =>
    rw [Option.bind_eq_bind, Option.bind_some, if_pos h, List.reverse_append]
    rfl

/-- Without one, the digits of the value. -/
theorem itoa_unsigned {base : ℤ} (h : ¬ (value < 0 ∧ base = 10)) :
    itoa value base = (itoaLoop base 64 value).map List.reverse := by
  unfold itoa
  dsimp only
  rw [if_neg h]
  cases itoaLoop base 64 value with
  | none => rfl
  | some str => rw [Option.bind_eq_bind, Option.bind_some, if_neg h, Option.map_some]

/-- A number that is not negative has its digits in both bases that are used. -/
theorem itoa_natural (hbase : 2 ≤ base) (hbase' : base ≤ 10) (hn : n < 2^31) :
    itoa n base = some (if n = 0 then [chr '0']
      else ((Nat.digits base n).map (fun d => digits.getD d 0)).reverse) := by
  have hneg : ¬ ((n : ℤ) < 0 ∧ (base : ℤ) = 10) := by omega
  have hbase0 : (base : ℤ) ≠ 0 := by omega
  rw [itoa_unsigned hneg]
  by_cases h0 : n = 0
  · subst h0
    rw [itoaLoop, if_neg hbase0]
    simp [itoaDigit, chr]
  · have hfuel : n < base^64 :=
      calc n < 2^31 := hn
        _ ≤ 2^64 := by norm_num
        _ ≤ base^64 := Nat.pow_le_pow_left hbase 64
    rw [itoaLoop_digits hbase hbase' (by omega) hfuel h0, if_neg h0, Option.map_some]

/-- The two agree in decimal on what is not negative. -/
theorem itoa_eq_itoa64 (hn : n < 2^31) : itoa n 10 = itoa64 n 10 := by
  rw [itoa64_eq (by omega) (by omega)]
  exact itoa_natural (by norm_num : 2 ≤ 10) (le_refl 10) hn

/-- In decimal, `itoa` writes a sign first on what is negative. -/
theorem itoa_negative (hneg : value < 0) :
    ∃ str, itoa value 10 = some (chr '-' :: str) := by
  have hvalue : (int32 (-value)).natAbs < 10^64 := by
    have hle : (int32 (-value)).natAbs ≤ 2^31 := by
      unfold int32
      omega
    calc (int32 (-value)).natAbs ≤ 2^31 := hle
      _ < 10^64 := by norm_num
  obtain ⟨str, hstr, -⟩ := itoaLoop_ends (by omega) (by omega) (le_refl 64) hvalue
  have hsign : value < 0 ∧ (10 : ℤ) = 10 := ⟨hneg, rfl⟩
  have hstr' : itoaLoop 10 64 (int32 (-value)) = some str := hstr
  refine ⟨str.reverse, ?_⟩
  rw [itoa_signed hsign, hstr', Option.map_some]

/-- In binary there is no sign, and there are at most 32 digits. -/
theorem itoa_binary (hle : -2^31 ≤ value) (hlt : value < 2^31) :
    ∃ str, itoa value 2 = some str ∧ str.length ≤ 32 := by
  have hvalue : value.natAbs < 2^32 := by omega
  obtain ⟨str, hstr, hlen⟩ := itoaLoop_ends (le_refl 2) (by omega)
    (by omega : 32 ≤ 64) hvalue
  have hsign : ¬ (value < 0 ∧ (2 : ℤ) = 10) := by omega
  have hstr' : itoaLoop 2 64 value = some str := hstr
  refine ⟨str.reverse, ?_, by rwa [List.length_reverse]⟩
  rw [itoa_unsigned hsign, hstr', Option.map_some]

end Potatos
