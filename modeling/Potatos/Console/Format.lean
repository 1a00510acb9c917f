import Mathlib.Data.List.Induction
import Potatos.Console.Numerals

/-!
# `printf` and `printfs`

`printf` of `src/lib/stdio.c` writes to the console, and `printfs` of `src/drivers/serial.c` is a
copy of it that writes to the serial port. The two are one loop over the format, with what each does
for `%i` and `%d` and for the conversions that are not in both. An argument is what is in its eight
bytes. The strings that the arguments point to are given by a function, and the buffers by lists
without a capacity.

They agree as long as no `%B` is met and every argument of `%i` and `%d` is not negative
(`printf_agrees_iff`).
-/

namespace Potatos

/-- What a call writes, and the indices of the format that it reads. -/
structure Formatted where
  bytes : List (BitVec 8)
  reads : List ℕ

/-- What `printf` and `printfs` do each in its own way: what is written for `%i` and `%d`, and for
the conversions that only one of them has, with the number of arguments that are taken. -/
structure Conversions where
  decimal : BitVec 32 → Option (List (BitVec 8))
  other : BitVec 8 → BitVec 32 → Option (List (BitVec 8) × ℕ)

/-- The `default` of both. -/
def unknownConversion (c : BitVec 8) : List (BitVec 8) × ℕ := ([chr '%', c], 0)

/-- A string with zeros before it, up to a width. -/
def zeroPadded (width : ℕ) (str : List (BitVec 8)) : List (BitVec 8) :=
  List.replicate (width - str.length) (chr '0') ++ str

namespace Conversions

variable (k : Conversions) (cstring : BitVec 64 → List (BitVec 8)) (format : ℕ → BitVec 8)
  (args : ℕ → BitVec 64)

/-- The `switch` on the character behind a `%`: what is written, and the number of arguments that
are taken. -/
def convert (c : BitVec 8) (arg : BitVec 64) : Option (List (BitVec 8) × ℕ) :=
  let int := arg.setWidth 32
  if c = chr 'u' then (itoa64 int.toNat 10).map (fun str => (str, 1))
  else if c = chr 'i' ∨ c = chr 'd' then (k.decimal int).map (fun str => (str, 1))
  else if c = chr 'x' then (itoa64 (int.signExtend 64).toNat 16).map (fun str => (str, 1))
  else if c = chr 'b' then (itoa int.toInt 2).map (fun str => (str, 1))
  else if c = chr 'p' then
    (itoa64 arg.toNat 16).map (fun str => ([chr '0', chr 'x'] ++ zeroPadded 16 str, 1))
  else if c = chr 's' then some (cstring arg, 1)
  else if c = chr 'c' then some ([arg.setWidth 8], 1)
  else k.other c int

/-- The loop over the format from the index `i` on, with `n` arguments taken. -/
def formatLoop : ℕ → ℕ → ℕ → Option Formatted
  | 0, _, _ => none
  | fuel + 1, i, n =>
    if format i = 0 then some ⟨[], [i]⟩
    else if format i = chr '%' then do
      let (bytes, taken) ← k.convert cstring (format (i + 1)) (args n)
      let rest ← formatLoop fuel (i + 2) (n + taken)
      some ⟨bytes ++ rest.bytes, i :: (i + 1) :: rest.reads⟩
    else do
      let rest ← formatLoop fuel (i + 1) n
      some ⟨format i :: rest.bytes, i :: rest.reads⟩

end Conversions

/-- Of `printf`. An `int` is passed to `itoa64` as 64 bits. -/
def printfConversions : Conversions where
  decimal int := itoa64 (int.signExtend 64).toNat 10
  other c int :=
    if c = chr 'B' then (itoa int.toInt 2).map (fun str => (zeroPadded 64 str, 1))
    else some (unknownConversion c)

/-- Of `printfs`. -/
def printfsConversions : Conversions where
  decimal int := itoa int.toInt 10
  other c _ := some (unknownConversion c)

/-- `printf`. -/
def printf (cstring : BitVec 64 → List (BitVec 8)) (format : ℕ → BitVec 8) (args : ℕ → BitVec 64)
    (fuel : ℕ) : Option Formatted :=
  printfConversions.formatLoop cstring format args fuel 0 0

/-- `printfs`. -/
def printfs (cstring : BitVec 64 → List (BitVec 8)) (format : ℕ → BitVec 8) (args : ℕ → BitVec 64)
    (fuel : ℕ) : Option Formatted :=
  printfsConversions.formatLoop cstring format args fuel 0 0

/-- The string from the index `i` on, up to its zero byte. -/
def StringAt (format : ℕ → BitVec 8) : ℕ → List (BitVec 8) → Prop
  | i, [] => format i = 0
  | i, b :: str => b ≠ 0 ∧ format i = b ∧ StringAt format (i + 1) str

/-- A character follows every `%` that starts a conversion. -/
def Complete : List (BitVec 8) → Prop
  | [] => True
  | [b] => b ≠ chr '%'
  | b :: c :: str => if b = chr '%' then Complete str else Complete (c :: str)

instance decidableComplete : DecidablePred Complete
  | [] => inferInstanceAs (Decidable True)
  | [b] => inferInstanceAs (Decidable (b ≠ chr '%'))
  | b :: c :: str =>
    have := decidableComplete str
    have := decidableComplete (c :: str)
    inferInstanceAs (Decidable (if b = chr '%' then Complete str else Complete (c :: str)))

/-- The number of arguments that a conversion of both takes. -/
def taken (c : BitVec 8) : ℕ :=
  if c ∈ [chr 'u', chr 'i', chr 'd', chr 'x', chr 'b', chr 'p', chr 's', chr 'c'] then 1 else 0

/-- The conversion is one that both have, and of a number that is not negative if it is `%i` or
`%d`. -/
def SameConversion (c : BitVec 8) (arg : BitVec 64) : Prop :=
  c ≠ chr 'B' ∧ (c = chr 'i' ∨ c = chr 'd' → 0 ≤ (arg.setWidth 32).toInt)

/-- Every conversion of the string is such a one, from the argument `n` on. -/
def SameConversions (args : ℕ → BitVec 64) : List (BitVec 8) → ℕ → Prop
  | [], _ => True
  | [_], _ => True
  | b :: c :: str, n =>
    if b = chr '%' then SameConversion c (args n) ∧ SameConversions args str (n + taken c)
    else SameConversions args (c :: str) n

variable {cstring : BitVec 64 → List (BitVec 8)} {format : ℕ → BitVec 8} {args : ℕ → BitVec 64}
  {k : Conversions} {c : BitVec 8} {arg : BitVec 64} {str : List (BitVec 8)} {i n : ℕ}

/-! ## One conversion -/

/-- Every conversion writes something, whatever the argument is. -/
def Conversions.Total (k : Conversions) : Prop :=
  (∀ int, ∃ str, k.decimal int = some str) ∧ ∀ c int, ∃ res, k.other c int = some res

theorem printfConversions_total : printfConversions.Total := by
  refine ⟨fun int => ?_, fun c int => ?_⟩
  · obtain ⟨str, hstr, -⟩ := itoa64_digits (by omega : 2 ≤ 10) (by omega)
      (int.signExtend 64).isLt
    exact ⟨str, hstr⟩
  · unfold printfConversions
    dsimp only
    split_ifs
    · obtain ⟨str, hstr, -⟩ := itoa_binary (BitVec.le_toInt int) (BitVec.toInt_lt (x := int))
      exact ⟨_, by rw [hstr]; rfl⟩
    · exact ⟨_, rfl⟩

theorem printfsConversions_total : printfsConversions.Total := by
  refine ⟨fun int => ?_, fun c int => ⟨_, rfl⟩⟩
  show ∃ str, itoa int.toInt 10 = some str
  have hle := BitVec.le_toInt int
  have hlt := BitVec.toInt_lt (x := int)
  by_cases hneg : int.toInt < 0
  · obtain ⟨str, hstr⟩ := itoa_negative hneg
    exact ⟨_, hstr⟩
  · obtain ⟨n, hn⟩ := Int.eq_ofNat_of_zero_le (Int.not_lt.mp hneg)
    obtain ⟨str, hstr, -⟩ := itoa64_digits (n := n) (by omega : 2 ≤ 10) (by omega) (by omega)
    exact ⟨str, by rw [hn, itoa_eq_itoa64 (by omega), hstr]⟩

theorem Conversions.Total.convert (hk : k.Total) (c : BitVec 8) (arg : BitVec 64) :
    ∃ res, k.convert cstring c arg = some res := by
  have hmap : ∀ {o : Option (List (BitVec 8))} {f : List (BitVec 8) → List (BitVec 8) × ℕ},
      (∃ str, o = some str) → ∃ res, o.map f = some res := by
    rintro o f ⟨str, rfl⟩
    exact ⟨_, rfl⟩
  have hitoa64 : ∀ {w : ℕ} (v : BitVec w) (base : ℕ), w ≤ 64 → 2 ≤ base → base ≤ 16 →
      ∃ str, itoa64 v.toNat base = some str := by
    intro w v base hw hbase hbase'
    have hlt : v.toNat < 2^64 := lt_of_lt_of_le v.isLt (Nat.pow_le_pow_right (by omega) hw)
    obtain ⟨str, hstr, -⟩ := itoa64_digits hbase hbase' hlt
    exact ⟨str, hstr⟩
  unfold Conversions.convert
  dsimp only
  -- The conversions to digits end for every number, and the others are not loops.
  split_ifs
  · exact hmap (hitoa64 _ 10 (by omega) (by omega) (by omega))
  · exact hmap (hk.1 _)
  · exact hmap (hitoa64 _ 16 (by omega) (by omega) (by omega))
  · obtain ⟨str, hstr, -⟩ := itoa_binary (BitVec.le_toInt (arg.setWidth 32))
      (BitVec.toInt_lt (x := arg.setWidth 32))
    exact hmap ⟨str, hstr⟩
  · exact hmap (hitoa64 _ 16 (by omega) (by omega) (by omega))
  · exact ⟨_, rfl⟩
  · exact ⟨_, rfl⟩
  · exact hk.2 _ _

theorem convert_decimal (hc : c = chr 'i' ∨ c = chr 'd') :
    k.convert cstring c arg = (k.decimal (arg.setWidth 32)).map (fun str => (str, 1)) := by
  have hu : c ≠ chr 'u' := by
    rcases hc with rfl | rfl <;> decide
  unfold Conversions.convert
  dsimp only
  rw [if_neg hu, if_pos hc]

/-- `%B` is none of the conversions of both. -/
theorem convert_wide (hc : c = chr 'B') :
    k.convert cstring c arg = k.other c (arg.setWidth 32) := by
  subst hc
  rfl

/-- Both take the same number of arguments. -/
theorem convert_taken (hB : c ≠ chr 'B') {res : List (BitVec 8) × ℕ}
    (h : printfsConversions.convert cstring c arg = some res) : res.2 = taken c := by
  have hmap : ∀ {o : Option (List (BitVec 8))} {f : List (BitVec 8) → List (BitVec 8)},
      o.map (fun str => (f str, 1)) = some res → res.2 = 1 := by
    intro o f hres
    obtain ⟨str, -, rfl⟩ := Option.map_eq_some_iff.mp hres
    rfl
  have hone : c ∈ [chr 'u', chr 'i', chr 'd', chr 'x', chr 'b', chr 'p', chr 's', chr 'c'] →
      res.2 = 1 → res.2 = taken c := fun hc hres => hres.trans (if_pos hc).symm
  unfold Conversions.convert at h
  dsimp only at h
  -- A conversion takes one argument, and an unknown character none.
  split_ifs at h with h1 h2 h3 h4 h5 h6 h7
  · exact hone (by simp [h1]) (hmap h)
  · exact hone (by rcases h2 with rfl | rfl <;> simp) (hmap h)
  · exact hone (by simp [h3]) (hmap h)
  · exact hone (by simp [h4]) (hmap h)
  · exact hone (by simp [h5]) (hmap h)
  · exact hone (by simp [h6]) (congrArg Prod.snd (Option.some.inj h).symm)
  · exact hone (by simp [h7]) (congrArg Prod.snd (Option.some.inj h).symm)
  · have hnone : c ∉ [chr 'u', chr 'i', chr 'd', chr 'x', chr 'b', chr 'p', chr 's', chr 'c'] := by
      simp only [List.mem_cons, List.not_mem_nil]
      tauto
    exact (congrArg Prod.snd (Option.some.inj h).symm).trans (if_neg hnone).symm

/-- A conversion of both writes the same in both. -/
theorem convert_same (h : SameConversion c arg) :
    printfConversions.convert cstring c arg = printfsConversions.convert cstring c arg := by
  obtain ⟨hB, hneg⟩ := h
  by_cases hc : c = chr 'i' ∨ c = chr 'd'
  · -- A number that is not negative is the same in 32 and in 64 bits.
    have hpos := hneg hc
    have hmsb : (arg.setWidth 32).msb = false := by
      rw [BitVec.msb_eq_toInt]
      exact decide_eq_false (by omega)
    have hint : (arg.setWidth 32).toInt = (arg.setWidth 32).toNat :=
      BitVec.toInt_eq_toNat_of_msb hmsb
    have hlt := BitVec.toInt_lt (x := arg.setWidth 32)
    have hext : ((arg.setWidth 32).signExtend 64).toNat = (arg.setWidth 32).toNat := by
      rw [BitVec.signExtend_eq_setWidth_of_msb_false hmsb, BitVec.toNat_setWidth_of_le (by omega)]
    rw [convert_decimal hc, convert_decimal hc]
    have hsame : printfConversions.decimal (arg.setWidth 32) =
        printfsConversions.decimal (arg.setWidth 32) := by
      show itoa64 ((arg.setWidth 32).signExtend 64).toNat 10 = itoa (arg.setWidth 32).toInt 10
      rw [hext, hint, itoa_eq_itoa64 (by omega)]
    rw [hsame]
  · unfold Conversions.convert
    dsimp only
    rw [if_neg hc, if_neg hc]
    have hother : printfConversions.other c (arg.setWidth 32) =
        printfsConversions.other c (arg.setWidth 32) := if_neg hB
    rw [hother]

/-- Any other differs in the first byte: `%B` is not known to `printfs`, and only `printfs` writes a
sign. -/
theorem convert_differ (h : ¬ SameConversion c arg) :
    ∃ x xs m y ys m', printfConversions.convert cstring c arg = some (x :: xs, m) ∧
      printfsConversions.convert cstring c arg = some (y :: ys, m') ∧ x ≠ y := by
  by_cases hB : c = chr 'B'
  · -- `%B`: digits in one of them, and the two characters in the other.
    obtain ⟨str, hstr, hlen⟩ := itoa_binary (BitVec.le_toInt (arg.setWidth 32))
      (BitVec.toInt_lt (x := arg.setWidth 32))
    obtain ⟨width, hwidth⟩ : ∃ w, 64 - str.length = w + 1 := ⟨63 - str.length, by omega⟩
    refine ⟨chr '0', List.replicate width (chr '0') ++ str, 1, chr '%', [c], 0, ?_, ?_, by decide⟩
    · rw [convert_wide hB]
      show (if c = chr 'B' then _ else _) = _
      rw [if_pos hB, hstr, Option.map_some, zeroPadded, hwidth]
      rfl
    · rw [convert_wide hB]
      rfl
  · -- A negative number: a digit of a large one, and a sign.
    have hneg : (c = chr 'i' ∨ c = chr 'd') ∧ (arg.setWidth 32).toInt < 0 := by
      unfold SameConversion at h
      push Not at h
      exact h hB
    obtain ⟨str, hstr, hne, hdigits⟩ := itoa64_digits (by omega : 2 ≤ 10) (by omega)
      ((arg.setWidth 32).signExtend 64).isLt
    obtain ⟨str', hstr'⟩ := itoa_negative hneg.2
    obtain ⟨x, xs, rfl⟩ := List.exists_cons_of_ne_nil hne
    refine ⟨x, xs, 1, chr '-', str', 1, ?_, ?_, fun hx => ?_⟩
    · rw [convert_decimal hneg.1]
      exact congrArg (Option.map _) hstr
    · rw [convert_decimal hneg.1]
      exact congrArg (Option.map _) hstr'
    · exact absurd (hx ▸ hdigits x (List.mem_cons_self ..)) (by decide)

/-! ## One pass of the loop -/

variable {fuel : ℕ}

theorem formatLoop_end (hi : format i = 0) :
    k.formatLoop cstring format args (fuel + 1) i n = some ⟨[], [i]⟩ :=
  if_pos hi

theorem formatLoop_literal {b : BitVec 8} (hi : format i = b) (hb : b ≠ 0) (hb' : b ≠ chr '%') :
    k.formatLoop cstring format args (fuel + 1) i n =
      (k.formatLoop cstring format args fuel (i + 1) n).map
        (fun o => ⟨b :: o.bytes, i :: o.reads⟩) := by
  subst hi
  rw [Conversions.formatLoop, if_neg hb, if_neg hb']
  cases k.formatLoop cstring format args fuel (i + 1) n <;> rfl

theorem formatLoop_convert {res : List (BitVec 8) × ℕ} (hi : format i = chr '%')
    (hres : k.convert cstring (format (i + 1)) (args n) = some res) :
    k.formatLoop cstring format args (fuel + 1) i n =
      (k.formatLoop cstring format args fuel (i + 2) (n + res.2)).map
        (fun o => ⟨res.1 ++ o.bytes, i :: (i + 1) :: o.reads⟩) := by
  have hne : format i ≠ 0 := by
    rw [hi]
    decide
  rw [Conversions.formatLoop, if_neg hne, if_pos hi, hres]
  show (k.formatLoop cstring format args fuel (i + 2) (n + res.2)).bind _ = _
  cases k.formatLoop cstring format args fuel (i + 2) (n + res.2) <;> rfl

/-! ## The whole string -/

/-- The loop ends, with a pass more than the string is long. -/
theorem formatLoop_total (hk : k.Total) (hstr : StringAt format i str) (hcomplete : Complete str) :
    ∃ o, ∀ fuel, str.length < fuel → k.formatLoop cstring format args fuel i n = some o := by
  induction str using List.twoStepInduction generalizing i n with
  | nil =>
    refine ⟨⟨[], [i]⟩, fun fuel hfuel => ?_⟩
    obtain ⟨fuel, rfl⟩ := Nat.exists_eq_succ_of_ne_zero (Nat.ne_of_gt hfuel)
    exact formatLoop_end hstr
  | singleton b =>
    obtain ⟨hb, hi, hend⟩ := hstr
    refine ⟨⟨[b], [i, i + 1]⟩, fun fuel hfuel => ?_⟩
    obtain ⟨fuel, rfl⟩ : ∃ f, fuel = f + 1 + 1 := ⟨fuel - 2, by simp at hfuel; omega⟩
    rw [formatLoop_literal hi hb hcomplete, formatLoop_end hend]
    rfl
  | cons_cons b c str ih ih' =>
    obtain ⟨hb, hi, hrest⟩ := hstr
    by_cases hpercent : b = chr '%'
    · -- A conversion, and the string after its character.
      obtain ⟨res, hres⟩ : ∃ res, k.convert cstring c (args n) = some res := hk.convert c (args n)
      have hcomplete' : Complete str := by rwa [Complete, if_pos hpercent] at hcomplete
      obtain ⟨o, ho⟩ := ih (n := n + res.2) hrest.2.2 hcomplete'
      refine ⟨⟨res.1 ++ o.bytes, i :: (i + 1) :: o.reads⟩, fun fuel hfuel => ?_⟩
      obtain ⟨fuel, rfl⟩ := Nat.exists_eq_succ_of_ne_zero (Nat.ne_of_gt (Nat.zero_lt_of_lt hfuel))
      rw [formatLoop_convert (hi.trans hpercent) (hrest.2.1 ▸ hres),
        ho fuel (by simp at hfuel; omega)]
      rfl
    · have hcomplete' : Complete (c :: str) := by rwa [Complete, if_neg hpercent] at hcomplete
      obtain ⟨o, ho⟩ := ih' c (n := n) hrest hcomplete'
      refine ⟨⟨b :: o.bytes, i :: o.reads⟩, fun fuel hfuel => ?_⟩
      obtain ⟨fuel, rfl⟩ := Nat.exists_eq_succ_of_ne_zero (Nat.ne_of_gt (Nat.zero_lt_of_lt hfuel))
      rw [formatLoop_literal hi hb hpercent, ho fuel (by simp at hfuel ⊢; omega)]
      rfl

/-- The outcomes of the loops agree only as far as the conversions do: the first that is not the
same in both changes the byte that it begins with. -/
theorem formatLoop_agree (hstr : StringAt format i str) (hcomplete : Complete str) {a b : Formatted}
    (ha : printfConversions.formatLoop cstring format args fuel i n = some a)
    (hb : printfsConversions.formatLoop cstring format args fuel i n = some b) :
    a.bytes = b.bytes ↔ SameConversions args str n := by
  obtain _ | fuel := fuel
  · cases ha
  induction str using List.twoStepInduction generalizing i n fuel a b with
  | nil =>
    rw [formatLoop_end hstr] at ha hb
    cases ha
    cases hb
    simp [SameConversions]
  | singleton x =>
    obtain ⟨hx, hi, hend⟩ := hstr
    rw [formatLoop_literal hi hx hcomplete] at ha hb
    obtain _ | fuel := fuel
    · cases ha
    rw [formatLoop_end hend] at ha hb
    cases ha
    cases hb
    simp [SameConversions]
  | cons_cons x c str ih ih' =>
    obtain ⟨hx, hi, hrest⟩ := hstr
    by_cases hpercent : x = chr '%'
    · have hcomplete' : Complete str := by rwa [Complete, if_pos hpercent] at hcomplete
      rw [SameConversions, if_pos hpercent]
      obtain rfl := hrest.2.1
      by_cases hsame : SameConversion (format (i + 1)) (args n)
      · -- The same bytes and the same next argument: what follows decides.
        obtain ⟨res, hres⟩ : ∃ res, printfsConversions.convert cstring (format (i + 1)) (args n) =
            some res := printfsConversions_total.convert _ _
        rw [formatLoop_convert (hi.trans hpercent) ((convert_same hsame).trans hres)] at ha
        rw [formatLoop_convert (hi.trans hpercent) hres] at hb
        obtain ⟨a', ha', rfl⟩ := Option.map_eq_some_iff.mp ha
        obtain ⟨b', hb', rfl⟩ := Option.map_eq_some_iff.mp hb
        obtain _ | fuel := fuel
        · cases ha'
        rw [convert_taken hsame.1 hres] at ha' hb'
        have := ih hrest.2.2 hcomplete' fuel ha' hb'
        simpa [hsame] using this
      · -- Other bytes already here.
        obtain ⟨y, ys, m, z, zs, m', hy, hz, hne⟩ :
            ∃ y ys m z zs m', printfConversions.convert cstring _ _ = some (y :: ys, m) ∧
              printfsConversions.convert cstring _ _ = some (z :: zs, m') ∧ y ≠ z :=
          convert_differ hsame
        rw [formatLoop_convert (hi.trans hpercent) hy] at ha
        rw [formatLoop_convert (hi.trans hpercent) hz] at hb
        obtain ⟨a', -, rfl⟩ := Option.map_eq_some_iff.mp ha
        obtain ⟨b', -, rfl⟩ := Option.map_eq_some_iff.mp hb
        simp [hsame, hne]
    · have hcomplete' : Complete (c :: str) := by rwa [Complete, if_neg hpercent] at hcomplete
      rw [SameConversions, if_neg hpercent]
      rw [formatLoop_literal hi hx hpercent] at ha hb
      obtain ⟨a', ha', rfl⟩ := Option.map_eq_some_iff.mp ha
      obtain ⟨b', hb', rfl⟩ := Option.map_eq_some_iff.mp hb
      obtain _ | fuel := fuel
      · cases ha'
      simpa using ih' c hrest hcomplete' fuel ha' hb'

/-- `printf` and `printfs` write the same bytes for a format if and only if it has no `%B` and no
argument of its `%i` and `%d` is negative as an `int`. Both end. -/
theorem printf_agrees_iff (cstring : BitVec 64 → List (BitVec 8)) (format : ℕ → BitVec 8)
    (args : ℕ → BitVec 64) (str : List (BitVec 8)) (hstr : StringAt format 0 str)
    (hcomplete : Complete str) :
    ∃ a b, (∀ fuel, str.length < fuel → printf cstring format args fuel = some a) ∧
      (∀ fuel, str.length < fuel → printfs cstring format args fuel = some b) ∧
      (a.bytes = b.bytes ↔ SameConversions args str 0) := by
  obtain ⟨a, ha⟩ : ∃ a, ∀ fuel, str.length < fuel → printf cstring format args fuel = some a :=
    formatLoop_total printfConversions_total hstr hcomplete
  obtain ⟨b, hb⟩ : ∃ b, ∀ fuel, str.length < fuel → printfs cstring format args fuel = some b :=
    formatLoop_total printfsConversions_total hstr hcomplete
  have hlt := Nat.lt_succ_self str.length
  exact ⟨a, b, ha, hb, formatLoop_agree hstr hcomplete (ha _ hlt) (hb _ hlt)⟩

/-- A number that is not negative, between literals. -/
theorem printf_agrees_iff_seven :
    ∃ a b, (∀ fuel, 4 < fuel → printf (fun _ => []) ([chr 'n', chr '=', chr '%', chr 'i'].getD · 0)
        (fun _ => 7) fuel = some a) ∧
      (∀ fuel, 4 < fuel → printfs (fun _ => []) ([chr 'n', chr '=', chr '%', chr 'i'].getD · 0)
        (fun _ => 7) fuel = some b) ∧
      (a.bytes = b.bytes ↔
        SameConversions (fun _ => 7) [chr 'n', chr '=', chr '%', chr 'i'] 0) :=
  printf_agrees_iff (fun _ => []) _ (fun _ => 7) [chr 'n', chr '=', chr '%', chr 'i']
    ⟨by decide, rfl, by decide, rfl, by decide, rfl, by decide, rfl, rfl⟩
    (by decide)

/-- `printf("%i", -1)` writes 18446744073709551615, and `printfs("%i", -1)` writes -1. -/
theorem printf_differs :
    ¬ ∀ (cstring : BitVec 64 → List (BitVec 8)) (format : ℕ → BitVec 8) (args : ℕ → BitVec 64)
      (str : List (BitVec 8)) (fuel : ℕ) (a b : Formatted), StringAt format 0 str → Complete str →
      printf cstring format args fuel = some a → printfs cstring format args fuel = some b →
      a.bytes = b.bytes := by
  intro h
  have := h (fun _ => []) ([chr '%', chr 'i'].getD · 0) (fun _ => -1) [chr '%', chr 'i'] 2
    ⟨"18446744073709551615".toList.map chr, [0, 1, 2]⟩ ⟨"-1".toList.map chr, [0, 1, 2]⟩
    ⟨by decide, rfl, by decide, rfl, rfl⟩ (by decide) (by rfl) (by rfl)
  exact absurd this (by decide)

end Potatos
