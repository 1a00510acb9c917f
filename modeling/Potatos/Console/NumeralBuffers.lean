import Mathlib.Data.Nat.Digits.Lemmas
import Potatos.Console.Numerals
import Potatos.Lib.ByteMemory

/-!
# The buffers of `itoa`

`itoa` and `reverse` of `src/lib/stdlib.c` on a buffer of the caller. The buffer has `room` bytes,
and what does not fit is `none`. The string in the buffer is the one of `Console/Numerals.lean`
(`itoaInto_eq`), and `Prints` says what the formatters print with it: a numeral of the value, in the
base.

Two kinds of values do not come out. Negating the smallest `int` leaves it negative, and in binary
nothing is negated at all. The remainders are then negative, and what is put into the buffer comes
before `'0'`.
-/

namespace Potatos.Buffer

open Lib (ByteMemory)

/-- The string of the first `n` bytes. -/
def bytesOf (s : ByteMemory) (n : ℕ) : List (BitVec 8) := (List.range n).map s

/-- `s[i] = b`, in a buffer of `room` bytes. -/
def putByte (room : ℕ) (s : ByteMemory) (i : ℕ) (b : BitVec 8) : Option ByteMemory :=
  if i < room then some (Function.update s i b) else none

/-- The loop of `strlen`, with `fuel` bytes left in the buffer. -/
def strlenLoop (s : ByteMemory) : ℕ → ℕ → Option ℕ
  | 0, _ => none
  | fuel + 1, i => if s i ≠ 0 then strlenLoop s fuel (i + 1) else some i

/-- `strlen`. -/
def strlen (room : ℕ) (s : ByteMemory) : Option ℕ := strlenLoop s room 0

/-- The loop of `reverse`, which swaps from both ends. -/
def reverseLoop (s : ByteMemory) (i j : ℕ) : ByteMemory :=
  if i < j then
    let c := s i
    let s := Function.update s i (s j)
    reverseLoop (Function.update s j c) (i + 1) (j - 1)
  else s
termination_by j - i

/-- `reverse`. -/
def reverse (room : ℕ) (s : ByteMemory) : Option ByteMemory := do
  let len ← strlen room s
  some (reverseLoop s 0 (len - 1))

/-- The loop of `itoa`, with the place after the last digit. -/
def itoaFill (room : ℕ) (base : ℤ) : ℕ → ByteMemory → ℕ → ℤ → Option (ByteMemory × ℕ)
  | 0, _, _, _ => none
  | fuel + 1, str, i, value =>
    if base = 0 then none
    else do
      let rem := value.tmod base
      let str ← putByte room str i (itoaDigit rem)
      let value := value.tdiv base
      if value ≠ 0 then itoaFill room base fuel str (i + 1) value else some (str, i + 1)

/-- `itoa`, into the buffer `str`. -/
def itoaInto (room : ℕ) (value : ℤ) (str : ByteMemory) (base : ℤ) : Option ByteMemory := do
  let is_negative := value < 0 ∧ base = 10
  let value := if is_negative then int32 (-value) else value
  let (str, i) ← itoaFill room base 64 str 0 value
  let (str, i) ←
    if is_negative then (putByte room str i (chr '-')).map (fun str => (str, i + 1))
    else some (str, i)
  let str ← putByte room str i 0
  reverse room str

/-! ## What the formatters print -/

/-- The number of the digits `ds`, the highest first. -/
def readDigits (base : ℕ) (ds : List (BitVec 8)) : ℕ :=
  Nat.ofDigits base (ds.reverse.map (fun b => b.toNat - 48))

/-- The number of a string that may begin with a sign. -/
def readBack (base : ℕ) (str : List (BitVec 8)) : ℤ :=
  if str.head? = some (chr '-') then -(readDigits base str.tail : ℤ) else readDigits base str

/-- An optional sign, then digits of the base, with no zero before other digits. -/
def IsNumeral (base : ℕ) (str : List (BitVec 8)) : Prop :=
  ∃ sign ds, str = sign ++ ds ∧ (sign = [] ∨ sign = [chr '-']) ∧ ds ≠ [] ∧
    (∀ b ∈ ds, 48 ≤ b.toNat ∧ b.toNat < 48 + base) ∧ (ds.head? = some (chr '0') → ds = [chr '0'])

/-- The number that is to be printed: the value itself, and in binary its 32 bits. -/
def printed (value : ℤ) (base : ℕ) : ℤ := if base = 2 then value % 2^32 else value

/-- The string that `itoa` leaves in a buffer of `room` bytes is a numeral of the value. -/
def Prints (room : ℕ) (value : ℤ) (str : ByteMemory) (base : ℕ) : Prop :=
  ∃ str' len, itoaInto room value str base = some str' ∧ strlen room str' = some len ∧
    len + 1 ≤ room ∧ IsNumeral base (bytesOf str' len) ∧
    readBack base (bytesOf str' len) = printed value base

variable {s s' str : ByteMemory} {room fuel base i j k n : ℕ} {value : ℤ} {b : BitVec 8}
  {bs : List (BitVec 8)}

/-! ## Strings in a buffer -/

@[simp] theorem bytesOf_length : (bytesOf s n).length = n := by simp [bytesOf]

theorem bytesOf_succ : bytesOf s (n + 1) = bytesOf s n ++ [s n] := by
  simp [bytesOf, List.range_succ]

/-- The string depends only on its bytes. -/
theorem bytesOf_congr (h : ∀ k < n, s k = s' k) : bytesOf s n = bytesOf s' n := by
  apply List.map_congr_left
  intro k hk
  exact h k (List.mem_range.mp hk)

/-- A byte behind the string leaves it. -/
theorem bytesOf_update_end : bytesOf (Function.update s n b) n = bytesOf s n :=
  bytesOf_congr (fun _ hk => Function.update_of_ne (Nat.ne_of_lt hk) ..)

/-- With that byte the string is longer. -/
theorem bytesOf_update : bytesOf (Function.update s n b) (n + 1) = bytesOf s n ++ [b] := by
  rw [bytesOf_succ, bytesOf_update_end, Function.update_self]

/-- `putByte` at the end of the string. -/
theorem putByte_eq (hi : i < room) :
    ∃ s', putByte room s i b = some s' ∧ bytesOf s' (i + 1) = bytesOf s i ++ [b] :=
  ⟨_, if_pos hi, bytesOf_update⟩

/-- The loop of `strlen` ends at the first zero. -/
theorem strlenLoop_eq (hne : ∀ k, i ≤ k → k < n → s k ≠ 0) (hzero : s n = 0) (hi : i ≤ n)
    (hfuel : n < i + fuel) : strlenLoop s fuel i = some n := by
  induction fuel generalizing i with
  | zero => omega
  | succ fuel ih =>
    rw [strlenLoop]
    by_cases h : i = n
    · rw [h, if_neg (not_not.mpr hzero)]
    · rw [if_pos (hne i (le_refl i) (by omega))]
      exact ih (fun k h1 h2 => hne k (by omega) h2) (by omega) (by omega)

theorem strlen_eq (hne : ∀ b ∈ bytesOf s n, b ≠ 0) (hzero : s n = 0) (hn : n < room) :
    strlen room s = some n := by
  apply strlenLoop_eq
  · intro k _ hk
    exact hne _ (List.mem_map.mpr ⟨k, List.mem_range.mpr hk, rfl⟩)
  · exact hzero
  · exact Nat.zero_le n
  · omega

/-- The loop of `reverse` turns what is between its two ends around, and leaves the rest. -/
theorem reverseLoop_apply :
    reverseLoop s i j k = if i ≤ k ∧ k ≤ j then s (i + j - k) else s k := by
  induction s, i, j using reverseLoop.induct with
  | case1 s i j hij c s₁ ih =>
    rw [reverseLoop, if_pos hij]
    rw [ih]
    -- The two ends have been swapped, and what is between them is left.
    have hsum : i + 1 + (j - 1) - k = i + j - k := by omega
    rw [hsum]
    simp only [Function.update_apply, s₁, c]
    split_ifs <;> first | rfl | omega | (congr 1; omega)
  | case2 s i j hij =>
    rw [reverseLoop, if_neg hij]
    split_ifs with h
    · congr 1
      omega
    · rfl

/-- `reverse` turns the string around in place. -/
theorem reverse_eq (hne : ∀ b ∈ bytesOf s n, b ≠ 0) (hzero : s n = 0) (hpos : 0 < n)
    (hn : n < room) :
    ∃ s', reverse room s = some s' ∧ bytesOf s' n = (bytesOf s n).reverse ∧ s' n = 0 := by
  refine ⟨reverseLoop s 0 (n - 1), ?_, ?_, ?_⟩
  · rw [reverse, strlen_eq hne hzero hn]
    rfl
  · apply List.ext_getElem (by simp)
    intro k hk _
    have hlt : k < n := by simpa using hk
    have hback : 0 + (n - 1) - k = n - 1 - k := by omega
    simp only [bytesOf, List.getElem_map, List.getElem_range, List.getElem_reverse,
      List.length_map, List.length_range]
    rw [reverseLoop_apply, if_pos ⟨Nat.zero_le k, by omega⟩, hback]
  · rw [reverseLoop_apply, if_neg (by omega)]
    exact hzero

/-! ## `itoa` in a buffer -/

variable {ds text : List (BitVec 8)} {z : ℤ}

/-- One round of the loop of `itoa`: a digit, and the digits of the quotient unless it is zero. -/
theorem itoaLoop_cases (h : itoaLoop z (fuel + 1) value = some ds) :
    z ≠ 0 ∧ ((value.tdiv z = 0 ∧ ds = [itoaDigit (value.tmod z)]) ∨
      (value.tdiv z ≠ 0 ∧ ∃ rest, itoaLoop z fuel (value.tdiv z) = some rest ∧
        ds = itoaDigit (value.tmod z) :: rest)) := by
  rw [itoaLoop] at h
  split_ifs at h with hz
  dsimp only at h
  split_ifs at h with hdiv
  · obtain ⟨rest, hrest, rfl⟩ := Option.map_eq_some_iff.mp h
    exact ⟨hz, Or.inr ⟨hdiv, rest, hrest, rfl⟩⟩
  · exact ⟨hz, Or.inl ⟨not_not.mp hdiv, (Option.some.inj h).symm⟩⟩

/-- The same round in a buffer. -/
theorem itoaFill_succ (hz : z ≠ 0) (hput : putByte room s i (itoaDigit (value.tmod z)) = some s') :
    itoaFill room z (fuel + 1) s i value =
      if value.tdiv z ≠ 0 then itoaFill room z fuel s' (i + 1) (value.tdiv z)
      else some (s', i + 1) := by
  rw [itoaFill, if_neg hz]
  dsimp only
  rw [hput]
  rfl

/-- The loop of `itoa` appends its digits, if they fit. -/
theorem itoaFill_eq (h : itoaLoop z fuel value = some ds) (hroom : i + ds.length ≤ room) :
    ∃ s', itoaFill room z fuel s i value = some (s', i + ds.length) ∧
      bytesOf s' (i + ds.length) = bytesOf s i ++ ds := by
  induction fuel generalizing i s value ds with
  | zero => exact absurd h (by simp [itoaLoop])
  | succ fuel ih =>
    have hi : ∀ rest : List (BitVec 8), ds = itoaDigit (value.tmod z) :: rest → i < room := by
      rintro rest rfl
      rw [List.length_cons] at hroom
      omega
    obtain ⟨hz, ⟨hdiv, rfl⟩ | ⟨hdiv, rest, hrest, rfl⟩⟩ := itoaLoop_cases h
    · -- This digit is the last one.
      obtain ⟨s₁, hput, hbytes⟩ := putByte_eq (s := s) (b := itoaDigit (value.tmod z)) (hi _ rfl)
      refine ⟨s₁, ?_, hbytes⟩
      rw [itoaFill_succ hz hput, if_neg (not_not.mpr hdiv)]
      rfl
    · obtain ⟨s₁, hput, hbytes⟩ := putByte_eq (s := s) (b := itoaDigit (value.tmod z)) (hi _ rfl)
      have hlen : i + (itoaDigit (value.tmod z) :: rest).length = i + 1 + rest.length := by
        rw [List.length_cons]
        omega
      obtain ⟨s', hs', hbytes'⟩ := ih (s := s₁) (i := i + 1) hrest (by omega)
      refine ⟨s', ?_, ?_⟩
      · rw [itoaFill_succ hz hput, if_pos hdiv, hs', hlen]
      · rw [hlen, hbytes', hbytes, List.append_assoc]
        rfl

/-- The bytes of the remainders below 10 are not zero. -/
theorem itoaDigit_ne_zero (hlt : z.natAbs < 10) : itoaDigit z ≠ 0 := by
  have hall : ∀ d < 10, itoaDigit (d : ℕ) ≠ 0 ∧ itoaDigit (-(d : ℕ)) ≠ 0 := by decide
  rcases Int.natAbs_eq z with h | h
  · rw [h]
    exact (hall _ hlt).1
  · rw [h]
    exact (hall _ hlt).2

theorem itoaLoop_ne_zero (hbase : 0 < base) (hbase' : base ≤ 10)
    (h : itoaLoop base fuel value = some ds) : ds ≠ [] ∧ ∀ b ∈ ds, b ≠ 0 := by
  have hdigit : ∀ value : ℤ, itoaDigit (value.tmod base) ≠ 0 := by
    intro value
    apply itoaDigit_ne_zero
    have hlt : (value.tmod base).natAbs < base := by
      rw [Int.natAbs_tmod]
      exact Nat.mod_lt _ hbase
    omega
  induction fuel generalizing value ds with
  | zero => exact absurd h (by simp [itoaLoop])
  | succ fuel ih =>
    obtain ⟨-, ⟨-, rfl⟩ | ⟨-, rest, hrest, rfl⟩⟩ := itoaLoop_cases h
    · exact ⟨List.cons_ne_nil _ _, by simpa using hdigit value⟩
    · refine ⟨List.cons_ne_nil _ _, fun b hb => ?_⟩
      rcases List.mem_cons.mp hb with rfl | hb
      · exact hdigit value
      · exact (ih hrest).2 b hb

/-- The string of `itoa` is not empty, and has no terminator in it. -/
theorem itoa_ne_zero (hbase : 0 < base) (hbase' : base ≤ 10) (h : itoa value base = some text) :
    text.reverse ≠ [] ∧ ∀ b ∈ text.reverse, b ≠ 0 := by
  by_cases hneg : value < 0 ∧ (base : ℤ) = 10
  · rw [itoa_signed hneg] at h
    obtain ⟨ds, hds, rfl⟩ := Option.map_eq_some_iff.mp h
    obtain ⟨-, hzero⟩ := itoaLoop_ne_zero hbase hbase' hds
    rw [List.reverse_cons, List.reverse_reverse]
    refine ⟨by simp, fun b hb => ?_⟩
    rcases List.mem_append.mp hb with hb | hb
    · exact hzero b hb
    · obtain rfl := List.mem_singleton.mp hb
      decide
  · rw [itoa_unsigned hneg] at h
    obtain ⟨ds, hds, rfl⟩ := Option.map_eq_some_iff.mp h
    rw [List.reverse_reverse]
    exact itoaLoop_ne_zero hbase hbase' hds

/-- The end of `itoa`: the terminator, and the string turned around. -/
theorem terminate_eq (hbytes : bytesOf s n = ds) (hds : ds ≠ [] ∧ ∀ b ∈ ds, b ≠ 0)
    (hn : n < room) :
    ∃ s', (putByte room s n 0).bind (reverse room) = some s' ∧ bytesOf s' n = ds.reverse ∧
      strlen room s' = some n := by
  obtain ⟨hne, hzero⟩ := hds
  have hrest : bytesOf (Function.update s n 0) n = ds := bytesOf_update_end.trans hbytes
  have hpos : 0 < n := by
    rw [← List.length_pos_iff_ne_nil, ← hbytes, bytesOf_length] at hne
    exact hne
  obtain ⟨s', hs', hrev, hend⟩ := reverse_eq (s := Function.update s n 0) (n := n)
    (by rwa [hrest]) (Function.update_self ..) hpos hn
  refine ⟨s', ?_, by rw [hrev, hrest], ?_⟩
  · rw [putByte, if_pos hn]
    exact hs'
  · apply strlen_eq _ hend hn
    intro b hb
    rw [hrev, hrest] at hb
    exact hzero b (List.mem_reverse.mp hb)

/-- Before it is turned around, the string of `itoa` is its digits and the sign. -/
theorem itoaInto_stages (h : itoa value base = some text) (hroom : text.length ≤ room) :
    ∃ s₁, bytesOf s₁ text.length = text.reverse ∧
      itoaInto room value s base = (putByte room s₁ text.length 0).bind (reverse room) := by
  unfold itoaInto
  dsimp only
  by_cases hneg : value < 0 ∧ (base : ℤ) = 10
  · rw [itoa_signed hneg] at h
    obtain ⟨ds, hds, rfl⟩ := Option.map_eq_some_iff.mp h
    rw [List.length_cons, List.length_reverse] at hroom ⊢
    rw [List.reverse_cons, List.reverse_reverse, if_pos hneg]
    obtain ⟨s₁, hfill, hbytes⟩ := itoaFill_eq (s := s) hds (by omega : 0 + ds.length ≤ room)
    rw [Nat.zero_add] at hfill hbytes
    obtain ⟨s₂, hput, hbytes'⟩ := putByte_eq (s := s₁) (b := chr '-') (by omega : ds.length < room)
    refine ⟨s₂, by rw [hbytes', hbytes]; rfl, ?_⟩
    rw [hfill, Option.bind_eq_bind, Option.bind_some, if_pos hneg, hput]
    rfl
  · rw [itoa_unsigned hneg] at h
    obtain ⟨ds, hds, rfl⟩ := Option.map_eq_some_iff.mp h
    rw [List.length_reverse] at hroom ⊢
    rw [List.reverse_reverse, if_neg hneg]
    obtain ⟨s₁, hfill, hbytes⟩ := itoaFill_eq (s := s) hds (by omega : 0 + ds.length ≤ room)
    rw [Nat.zero_add] at hfill hbytes
    refine ⟨s₁, hbytes, ?_⟩
    rw [hfill, Option.bind_eq_bind, Option.bind_some, if_neg hneg]
    rfl

/-- `itoa` in a buffer: its string, where it fits together with the terminator. -/
theorem itoaInto_eq (hbase : 0 < base) (hbase' : base ≤ 10) (h : itoa value base = some text)
    (hroom : text.length < room) :
    ∃ s', itoaInto room value s base = some s' ∧ bytesOf s' text.length = text ∧
      strlen room s' = some text.length := by
  obtain ⟨s₁, hbytes, hinto⟩ := itoaInto_stages (s := s) h (Nat.le_of_lt hroom)
  obtain ⟨s', hs', hbytes', hlen⟩ := terminate_eq hbytes (itoa_ne_zero hbase hbase' h) hroom
  rw [List.reverse_reverse] at hbytes'
  exact ⟨s', by rw [hinto, hs'], hbytes', hlen⟩

/-- Without room for the terminator, `itoa` writes outside the buffer. -/
theorem itoaInto_fits (h : itoa value base = some text) (hroom : text.length ≤ room)
    (hinto : itoaInto room value s base = some s') : text.length < room := by
  obtain ⟨s₁, -, hstages⟩ := itoaInto_stages (s := s) h hroom
  by_contra hfull
  rw [hstages, putByte, if_neg hfull] at hinto
  exact absurd hinto (by simp)

/-! ## Numerals of the values -/

/-- The numeral of `n`. -/
def numeral (base n : ℕ) : List (BitVec 8) :=
  if n = 0 then [chr '0'] else ((Nat.digits base n).map (fun d => digits.getD d 0)).reverse

/-- The bytes of a numeral are digits below the base. -/
theorem mem_numeral (hbase : 2 ≤ base) (hb : b ∈ numeral base n) :
    ∃ d < base, b = digits.getD d 0 := by
  unfold numeral at hb
  split_ifs at hb with h0
  · exact ⟨0, by omega, List.mem_singleton.mp hb⟩
  · obtain ⟨d, hd, rfl⟩ := List.mem_map.mp (List.mem_reverse.mp hb)
    exact ⟨d, Nat.digits_lt_base (by omega) hd, rfl⟩

/-- The table `digits` has the ten digits one after the other. -/
theorem digits_toNat : ∀ d < 10, (digits.getD d 0).toNat = 48 + d := by decide

theorem numeral_digits (hbase : 2 ≤ base) (hbase' : base ≤ 10) :
    ∀ b ∈ numeral base n, 48 ≤ b.toNat ∧ b.toNat < 48 + base := by
  intro b hb
  obtain ⟨d, hd, rfl⟩ := mem_numeral hbase hb
  have hbyte := digits_toNat d (by omega)
  omega

theorem numeral_ne_nil : numeral base n ≠ [] := by
  unfold numeral
  split_ifs with h0
  · exact List.cons_ne_nil _ _
  · simpa [Nat.digits_ne_nil_iff_ne_zero] using h0

/-- The table has the zero once. -/
theorem digits_eq_zero : ∀ d < 16, digits.getD d 0 = chr '0' → d = 0 := by decide

/-- No numeral begins with a zero but the one of zero. -/
theorem numeral_head (hbase : 2 ≤ base) (hbase' : base ≤ 16)
    (hhead : (numeral base n).head? = some (chr '0')) : n = 0 ∧ numeral base n = [chr '0'] := by
  unfold numeral at hhead ⊢
  split_ifs at hhead ⊢ with h0
  · exact ⟨h0, rfl⟩
  · -- The highest digit of a number is not zero.
    have hne : Nat.digits base n ≠ [] := Nat.digits_ne_nil_iff_ne_zero.mpr h0
    have hlast := Nat.getLast_digit_ne_zero base h0
    have hlt := Nat.digits_lt_base (by omega : 1 < base) (List.getLast_mem hne)
    rw [List.head?_reverse, List.getLast?_map, List.getLast?_eq_some_getLast hne] at hhead
    exact absurd (digits_eq_zero _ (by omega) (Option.some.inj hhead)) hlast

/-- The numeral of a number reads back to it. -/
theorem readDigits_numeral (hbase : 2 ≤ base) (hbase' : base ≤ 10) :
    readDigits base (numeral base n) = n := by
  unfold readDigits numeral
  split_ifs with h0
  · rw [h0]
    simp [chr]
  · have hread : ((Nat.digits base n).map (fun d => digits.getD d 0)).map (fun b => b.toNat - 48) =
        Nat.digits base n := by
      rw [List.map_map]
      refine (List.map_congr_left fun d hd => ?_).trans (List.map_id _)
      have hlt := Nat.digits_lt_base (by omega : 1 < base) hd
      have hbyte := digits_toNat d (by omega)
      show (digits.getD d 0).toNat - 48 = d
      omega
    rw [List.reverse_reverse, hread, Nat.ofDigits_digits]

/-- A numeral has at most as many digits as the power that its number is below. -/
theorem numeral_length (hbase : 2 ≤ base) (hk : 0 < k) (hn : n < base^k) :
    (numeral base n).length ≤ k := by
  unfold numeral
  split_ifs with h0
  · exact hk
  · rw [List.length_reverse, List.length_map]
    exact (Nat.digits_length_le_iff (by omega) _).mpr hn

/-- A value that is not negative has its numeral, in both bases. -/
theorem itoa_eq_numeral (hbase : 2 ≤ base) (hbase' : base ≤ 10) (hn : n < 2^31) :
    itoa n base = some (numeral base n) :=
  itoa_natural hbase hbase' hn

/-- In decimal, a negative value has a sign and the numeral of its size, unless it is the smallest
`int`. -/
theorem itoa_neg_eq_numeral (hpos : 0 < n) (hn : n < 2^31) :
    itoa (-n) 10 = some (chr '-' :: numeral 10 n) := by
  have hneg : (-n : ℤ) < 0 ∧ (10 : ℤ) = 10 := by omega
  have hint : int32 (-(-n : ℤ)) = n := by
    unfold int32
    omega
  have hfuel : n < 10^64 :=
    calc n < 2^31 := hn
      _ ≤ 10^64 := by norm_num
  have hloop := itoaLoop_digits (by norm_num : 2 ≤ 10) (le_refl 10) (by omega : 0 < 64) hfuel
    (by omega)
  have hloop' : itoaLoop 10 64 n = _ := hloop
  rw [itoa_signed hneg, hint, hloop', numeral, if_neg (by omega), Option.map_some]

/-- Where the string of `itoa` is a numeral that fits, the buffer has it. -/
theorem Prints.of_itoa (hbase : 0 < base) (hbase' : base ≤ 10) (h : itoa value base = some text)
    (hroom : text.length < room) (hnumeral : IsNumeral base text)
    (hread : readBack base text = printed value base) : Prints room value s base := by
  obtain ⟨s', hs', hbytes, hlen⟩ := itoaInto_eq (s := s) hbase hbase' h hroom
  exact ⟨s', text.length, hs', hlen, hroom, by rwa [hbytes], by rwa [hbytes]⟩

/-- What is printed is the string of `itoa`. -/
theorem Prints.isNumeral (hbase : 0 < base) (hbase' : base ≤ 10) (h : itoa value base = some text)
    (hroom : text.length ≤ room) (hprints : Prints room value s base) : IsNumeral base text := by
  obtain ⟨s', len, hinto, hlen, -, hnumeral, -⟩ := hprints
  obtain ⟨s'', hs'', hbytes, hlen'⟩ := itoaInto_eq (s := s) hbase hbase' h
    (itoaInto_fits h hroom hinto)
  obtain rfl := Option.some.inj (hinto.symm.trans hs'')
  obtain rfl := Option.some.inj (hlen.symm.trans hlen')
  rwa [hbytes] at hnumeral

/-- A numeral has no byte before `'0'` but the sign. -/
theorem not_isNumeral_of_mem (hmem : b ∈ bs) (hsign : b ≠ chr '-') (hlt : b.toNat < 48) :
    ¬ IsNumeral base bs := by
  rintro ⟨sign, ds, rfl, hfirst, -, hdigits, -⟩
  rcases List.mem_append.mp hmem with hb | hb
  · rcases hfirst with rfl | rfl
    · exact List.not_mem_nil hb
    · exact hsign (List.mem_singleton.mp hb)
  · have hle := (hdigits b hb).1
    omega

/-- A value that is not negative is printed. -/
theorem prints_natural (hbase : 2 ≤ base) (hbase' : base ≤ 10) (hn : n < 2^31) :
    Prints 32 n s base := by
  have hlen : (numeral base n).length ≤ 31 := by
    apply numeral_length hbase (by omega)
    calc n < 2^31 := hn
      _ ≤ base^31 := Nat.pow_le_pow_left hbase 31
  have hhead : (numeral base n).head? ≠ some (chr '-') := by
    intro hhead
    have hminus := numeral_digits (n := n) hbase hbase' _ (List.mem_of_mem_head? hhead)
    have h45 : (chr '-').toNat = 45 := rfl
    omega
  apply Prints.of_itoa (by omega) hbase' (itoa_eq_numeral hbase hbase' hn) (by omega)
  · exact ⟨[], _, rfl, Or.inl rfl, numeral_ne_nil, numeral_digits hbase hbase',
      fun hhead => (numeral_head hbase (by omega) hhead).2⟩
  · rw [readBack, if_neg hhead, readDigits_numeral hbase hbase', printed]
    split_ifs
    · omega
    · rfl

/-- In decimal, every negative value but the smallest is printed. -/
theorem prints_negative (hpos : 0 < n) (hn : n < 2^31) : Prints 32 (-n) s 10 := by
  have hlen : (numeral 10 n).length ≤ 10 := by
    apply numeral_length (by omega) (by omega)
    calc n < 2^31 := hn
      _ ≤ 10^10 := by norm_num
  have hread : readDigits 10 (numeral 10 n) = n := readDigits_numeral (by omega) (le_refl 10)
  apply Prints.of_itoa (by omega) (le_refl 10) (itoa_neg_eq_numeral hpos hn)
  · rw [List.length_cons]
    omega
  · exact ⟨[chr '-'], _, rfl, Or.inr rfl, numeral_ne_nil, numeral_digits (by omega) (le_refl 10),
      fun hhead => (numeral_head (by omega) (by omega) hhead).2⟩
  · rw [readBack, List.head?_cons, if_pos rfl, List.tail_cons, hread]
    rfl

/-- In binary, the first digit of a negative value is the byte before `'0'`. -/
theorem itoaLoop_binary_negative (hneg : value < 0) (h : itoaLoop 2 fuel value = some ds) :
    chr '/' ∈ ds := by
  induction fuel generalizing value ds with
  | zero => exact absurd h (by simp [itoaLoop])
  | succ fuel ih =>
    obtain ⟨n, rfl⟩ : ∃ n : ℕ, value = -n := ⟨value.natAbs, by omega⟩
    have hquot : (-n : ℤ).tdiv 2 = -(n / 2 : ℕ) := Int.neg_tdiv ..
    obtain ⟨-, ⟨hdiv, rfl⟩ | ⟨hdiv, rest, hrest, rfl⟩⟩ := itoaLoop_cases h
    · obtain rfl : n = 1 := by omega
      exact List.mem_singleton.mpr rfl
    · exact List.mem_cons_of_mem _ (ih (by omega) hrest)

/-- In binary, no negative value is printed. -/
theorem not_prints_binary (hle : -2^31 ≤ value) (hneg : value < 0) : ¬ Prints 32 value s 2 := by
  obtain ⟨text, htext, hlen⟩ := itoa_binary hle (by omega)
  have hmem : chr '/' ∈ text := by
    have hsign : ¬ (value < 0 ∧ (2 : ℤ) = 10) := by omega
    have h := htext
    rw [itoa_unsigned hsign] at h
    obtain ⟨ds, hds, rfl⟩ := Option.map_eq_some_iff.mp h
    exact List.mem_reverse.mpr (itoaLoop_binary_negative hneg hds)
  intro hprints
  exact not_isNumeral_of_mem hmem (by decide) (by decide)
    (Prints.isNumeral (by norm_num : 0 < 2) (by norm_num) htext hlen hprints)

/-- In decimal, the smallest `int` is not printed. -/
theorem not_prints_smallest : ¬ Prints 32 (-2^31) s 10 := by
  have htext : itoa (-2^31) 10 = some ("-./,),(-*,(".toList.map chr) := by decide +kernel
  intro hprints
  exact not_isNumeral_of_mem (b := chr '/') (by decide) (by decide) (by decide)
    (Prints.isNumeral (by norm_num : 0 < 10) (le_refl 10) htext (by decide) hprints)

/-- `itoa` writes a numeral of each `int`, but in decimal not of the smallest one, and in binary not
of the negative ones. -/
theorem itoa_prints_iff (hle : -2^31 ≤ value) (hlt : value < 2^31) (hbase : base = 10 ∨ base = 2) :
    Prints 32 value str base ↔
      (base = 10 → value ≠ -2^31) ∧ (base = 2 → 0 ≤ value) := by
  constructor
  · intro hprints
    constructor
    · rintro rfl rfl
      exact not_prints_smallest hprints
    · rintro rfl
      by_contra hneg
      exact not_prints_binary hle (by omega) hprints
  · rintro ⟨hten, htwo⟩
    by_cases hneg : value < 0
    · have hten' : base = 10 := by omega
      have hne := hten hten'
      obtain ⟨n, rfl⟩ : ∃ n : ℕ, value = -n := ⟨value.natAbs, by omega⟩
      subst hten'
      exact prints_negative (by omega) (by omega)
    · obtain ⟨n, rfl⟩ : ∃ n : ℕ, value = n := ⟨value.natAbs, by omega⟩
      exact prints_natural (by omega) (by omega) (by omega)

theorem itoa_prints_iff_minus_five :
    Prints 32 (-5) (fun _ => 0) 10 ↔ (10 = 10 → (-5 : ℤ) ≠ -2^31) ∧ (10 = 2 → (0 : ℤ) ≤ -5) :=
  itoa_prints_iff (by omega) (by omega) (Or.inl rfl)

/-- The smallest `int` in decimal, and -1 in binary. -/
theorem itoa_not_numeral : ¬ Prints 32 (-2^31) (fun _ => 0) 10 ∧ ¬ Prints 32 (-1) (fun _ => 0) 2 :=
  ⟨not_prints_smallest, not_prints_binary (by omega) (by omega)⟩

end Potatos.Buffer
