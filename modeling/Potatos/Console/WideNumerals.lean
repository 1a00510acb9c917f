import Potatos.Console.Format
import Potatos.Console.NumeralBuffers

/-!
# The buffers of `itoa64`

`itoa64` of `src/lib/stdlib.c` puts the digits into an array of its own, the lowest first, and
copies them from the end of that array into the buffer of the caller. Both are byte memories with a
size, and what does not fit is `none`. The string in the buffer is the one of
`Console/Numerals.lean` (`itoa64Into_eq`). `evalNumeral` reads it with the table of the digits, and
so the numerals of two values are not the same.

`%p` of `printf` and `printfs` has a buffer of 20 bytes. The 16 digits of a pointer fit, and zeros
stand for those that it does not have (`pointerInto_eq`).
-/

namespace Potatos.Buffer

open Lib (ByteMemory)

/-- The first loop of `itoa64`, with the number of digits in `temp`. -/
def itoa64Fill (base : ℕ) : ℕ → ByteMemory → ℕ → ℕ → Option (ByteMemory × ℕ)
  | 0, _, _, _ => none
  | fuel + 1, temp, i, value =>
    if value = 0 then some (temp, i)
    else if base = 0 then none
    else do
      let temp ← putByte 65 temp i (digits.getD (value % base) 0)
      itoa64Fill base fuel temp (i + 1) (value / base)

/-- The second loop, with `i` digits left in `temp`. -/
def itoa64Copy (room : ℕ) (temp : ByteMemory) : ℕ → ByteMemory → ℕ → Option (ByteMemory × ℕ)
  | 0, buffer, j => some (buffer, j)
  | i + 1, buffer, j => do
    let buffer ← putByte room buffer j (temp i)
    itoa64Copy room temp i buffer (j + 1)

/-- `itoa64`, into a buffer of `room` bytes. What is in `temp` at first is not known. -/
def itoa64Into (room value : ℕ) (buffer : ByteMemory) (base : ℕ) (temp : ByteMemory) :
    Option ByteMemory :=
  if value = 0 then do
    let buffer ← putByte room buffer 0 (chr '0')
    putByte room buffer 1 0
  else do
    let (temp, i) ← itoa64Fill base 66 temp 0 value
    let (buffer, j) ← itoa64Copy room temp i buffer 0
    putByte room buffer j 0

/-- `%p` of `printf` and `printfs`: what is written for the pointer `ptr`. -/
def pointerInto (ptr : BitVec 64) (buffer temp : ByteMemory) : Option (List (BitVec 8)) := do
  let buffer ← itoa64Into 20 ptr.toNat buffer 16 temp
  let len_of_value ← strlen 20 buffer
  some ([chr '0', chr 'x'] ++ List.replicate (16 - len_of_value) (chr '0') ++
    bytesOf buffer len_of_value)

/-! ## What a numeral is -/

/-- The number that the digits of a string stand for, the highest first. -/
def evalNumeral (base : ℕ) (str : List (BitVec 8)) : ℕ :=
  str.foldl (fun value b => value * base + digits.idxOf b) 0

/-- The numeral of `value`: digits of the base, with no zero before them unless the value is
zero. -/
structure Canonical (base value : ℕ) (str : List (BitVec 8)) : Prop where
  ne_nil : str ≠ []
  digit : ∀ b ∈ str, b ∈ digits.take base
  head : str.head? = some (chr '0') → value = 0 ∧ str = [chr '0']
  eval : evalNumeral base str = value

/-- `itoa64` leaves the string and its terminator in a buffer of `room` bytes, whatever was in the
buffer and in its array. -/
def Leaves (room value base : ℕ) (str : List (BitVec 8)) : Prop :=
  ∀ buffer temp : ByteMemory, ∃ buffer', itoa64Into room value buffer base temp = some buffer' ∧
    strlen room buffer' = some str.length ∧ bytesOf buffer' str.length = str

variable {base n value value' room fuel i j : ℕ} {temp buffer : ByteMemory}
  {ds text text' str : List (BitVec 8)} {b : BitVec 8}

/-! ## The two loops -/

/-- The array has room for the digits. -/
theorem itoa64Loop_length (h : itoa64Loop base room value = some ds) : ds.length ≤ room := by
  induction room generalizing value ds with
  | zero =>
    rw [itoa64Loop] at h
    split_ifs at h with h0
    exact Nat.le_of_eq (congrArg List.length (Option.some.inj h).symm)
  | succ room ih =>
    rw [itoa64Loop] at h
    split_ifs at h with h0 hbase
    · obtain rfl := Option.some.inj h
      exact Nat.zero_le _
    · obtain ⟨rest, hrest, rfl⟩ := Option.map_eq_some_iff.mp h
      exact Nat.succ_le_succ (ih hrest)

/-- The first loop appends its digits to `temp`, as far as there is room. -/
theorem itoa64Fill_eq (temp : ByteMemory) (h : itoa64Loop base fuel value = some ds)
    (hroom : i + ds.length ≤ 65) :
    ∃ temp', itoa64Fill base (fuel + 1) temp i value = some (temp', i + ds.length) ∧
      bytesOf temp' (i + ds.length) = bytesOf temp i ++ ds := by
  induction fuel generalizing temp i value ds with
  | zero =>
    rw [itoa64Loop] at h
    split_ifs at h with h0
    obtain rfl := Option.some.inj h
    exact ⟨temp, if_pos h0, (List.append_nil _).symm⟩
  | succ fuel ih =>
    rw [itoa64Loop] at h
    split_ifs at h with h0 hbase
    · obtain rfl := Option.some.inj h
      exact ⟨temp, if_pos h0, (List.append_nil _).symm⟩
    · obtain ⟨rest, hrest, rfl⟩ := Option.map_eq_some_iff.mp h
      rw [List.length_cons] at hroom
      obtain ⟨temp₁, hput, hbytes⟩ := putByte_eq (s := temp)
        (b := digits.getD (value % base) 0) (by omega : i < 65)
      obtain ⟨temp', hfill, hbytes'⟩ := ih temp₁ (i := i + 1) hrest (by omega)
      have hlen : i + (digits.getD (value % base) 0 :: rest).length = i + 1 + rest.length := by
        rw [List.length_cons]
        omega
      rw [hlen]
      refine ⟨temp', ?_, ?_⟩
      · rw [itoa64Fill, if_neg h0, if_neg hbase, hput]
        exact hfill
      · rw [hbytes', hbytes, List.append_assoc]
        rfl

/-- The second loop appends what is in `temp`, turned around. -/
theorem itoa64Copy_eq (temp buffer : ByteMemory) (hroom : j + i ≤ room) :
    ∃ buffer', itoa64Copy room temp i buffer j = some (buffer', j + i) ∧
      bytesOf buffer' (j + i) = bytesOf buffer j ++ (bytesOf temp i).reverse := by
  induction i generalizing buffer j with
  | zero => exact ⟨buffer, rfl, (List.append_nil _).symm⟩
  | succ i ih =>
    obtain ⟨buffer₁, hput, hbytes⟩ := putByte_eq (s := buffer) (b := temp i) (by omega : j < room)
    obtain ⟨buffer', hcopy, hbytes'⟩ := ih buffer₁ (j := j + 1) (by omega)
    have hsum : j + (i + 1) = j + 1 + i := by omega
    rw [hsum]
    refine ⟨buffer', ?_, ?_⟩
    · rw [itoa64Copy, hput]
      exact hcopy
    · rw [hbytes', hbytes, bytesOf_succ, List.reverse_append, List.append_assoc]
      rfl

/-- A terminator behind a string of digits. -/
theorem putByte_terminator (hbytes : bytesOf buffer text.length = text) (hne : ∀ b ∈ text, b ≠ 0)
    (hroom : text.length < room) :
    ∃ buffer', putByte room buffer text.length 0 = some buffer' ∧
      strlen room buffer' = some text.length ∧ bytesOf buffer' text.length = text := by
  have hrest : bytesOf (Function.update buffer text.length 0) text.length = text :=
    bytesOf_update_end.trans hbytes
  refine ⟨_, if_pos hroom, ?_, hrest⟩
  exact strlen_eq (by rwa [hrest]) (Function.update_self ..) hroom

/-! ## `itoa64` in a buffer -/

/-- No digit is a terminator. -/
theorem digits_ne_zero : ∀ b ∈ digits, b ≠ 0 := by decide

/-- `itoa64` in a buffer: its string, where it fits together with the terminator. -/
theorem itoa64Into_eq (hbase : 2 ≤ base) (hbase' : base ≤ 16) (hvalue : value < 2^64)
    (h : itoa64 value base = some text) (hroom : text.length < room) :
    Leaves room value base text := by
  intro buffer temp
  obtain ⟨text', htext', -, hdigits⟩ := itoa64_digits hbase hbase' hvalue
  obtain rfl := Option.some.inj (h.symm.trans htext')
  have hne : ∀ b ∈ text, b ≠ 0 := fun b hb => digits_ne_zero b (hdigits b hb)
  unfold itoa64 at h
  unfold itoa64Into
  split_ifs at h with h0
  · obtain rfl := Option.some.inj h
    have hpos : 0 < room := Nat.zero_lt_of_lt hroom
    obtain ⟨buffer₁, hput, hbytes⟩ := putByte_eq (s := buffer) (b := chr '0') hpos
    rw [if_pos h0, hput]
    exact putByte_terminator hbytes hne hroom
  · obtain ⟨ds, hds, rfl⟩ := Option.map_eq_some_iff.mp h
    rw [List.length_reverse] at hroom ⊢
    have hlen := itoa64Loop_length hds
    obtain ⟨temp₁, hfill, hbytes⟩ := itoa64Fill_eq temp hds (by omega : 0 + ds.length ≤ 65)
    obtain ⟨buffer₁, hcopy, hbytes'⟩ :=
      itoa64Copy_eq temp₁ buffer (by omega : 0 + ds.length ≤ room)
    rw [Nat.zero_add] at hfill hbytes hcopy hbytes'
    have hstr : bytesOf buffer₁ ds.reverse.length = ds.reverse := by
      rw [List.length_reverse, hbytes', hbytes]
      rfl
    obtain ⟨buffer', hput, hleaves⟩ := putByte_terminator hstr hne (by rwa [List.length_reverse])
    rw [List.length_reverse] at hput hleaves
    refine ⟨buffer', ?_, hleaves⟩
    rw [if_neg h0, hfill, Option.bind_eq_bind, Option.bind_some]
    dsimp only
    rw [hcopy]
    exact hput

/-! ## The numeral -/

/-- The table has each digit at its value. -/
theorem digits_idxOf : ∀ d < 16, digits.idxOf (digits.getD d 0) = d := by decide

/-- The digits below a base come first in the table. -/
theorem digits_mem_take (hd : n < base) (hbase' : base ≤ 16) :
    digits.getD n 0 ∈ digits.take base := by
  have hlen : n < (digits.take base).length := by
    have h16 : digits.length = 16 := rfl
    rw [List.length_take]
    omega
  have hget : (digits.take base)[n] = digits.getD n 0 := by
    rw [List.getElem_take, List.getD_eq_getElem]
  exact hget ▸ List.getElem_mem hlen

theorem evalNumeral_append :
    evalNumeral base (text ++ [b]) = evalNumeral base text * base + digits.idxOf b := by
  simp [evalNumeral]

/-- Zeros before a string do not change its number. -/
theorem evalNumeral_zeros : evalNumeral base (List.replicate n (chr '0') ++ text) =
    evalNumeral base text := by
  have hzero : digits.idxOf (chr '0') = 0 := by decide
  induction n with
  | zero => rfl
  | succ n ih =>
    rw [List.replicate_succ, List.cons_append, ← ih]
    unfold evalNumeral
    rw [List.foldl_cons, hzero, Nat.zero_mul]

/-- The digits of a number evaluate to it. -/
theorem evalNumeral_digits {L : List ℕ} (hL : ∀ d ∈ L, d < 16) :
    evalNumeral base (L.map (fun d => digits.getD d 0)).reverse = Nat.ofDigits base L := by
  induction L with
  | nil => rfl
  | cons d L ih =>
    have hd := digits_idxOf d (hL d (List.mem_cons_self ..))
    have hrest := ih (fun d hd => hL d (List.mem_cons_of_mem _ hd))
    rw [List.map_cons, List.reverse_cons, evalNumeral_append, hrest, hd, Nat.ofDigits_cons]
    ring

/-- The string of `itoa64` is the numeral of its value. -/
theorem numeral_canonical (hbase : 2 ≤ base) (hbase' : base ≤ 16) :
    Canonical base n (numeral base n) where
  ne_nil := numeral_ne_nil
  digit := by
    intro b hb
    obtain ⟨d, hd, rfl⟩ := mem_numeral hbase hb
    exact digits_mem_take hd hbase'
  head := numeral_head hbase hbase'
  eval := by
    unfold numeral
    split_ifs with h0
    · have hzero : digits.idxOf (chr '0') = 0 := by decide
      rw [h0, evalNumeral, List.foldl_cons, hzero, Nat.zero_mul]
      rfl
    · rw [evalNumeral_digits, Nat.ofDigits_digits]
      intro d hd
      have hlt := Nat.digits_lt_base (by omega : 1 < base) hd
      omega

/-- `itoa64` leaves the numeral of the value, where it fits together with the terminator. -/
theorem leaves_numeral (room : ℕ) (hbase : 2 ≤ base) (hbase' : base ≤ 16)
    (hvalue : value < 2^64) (hroom : (numeral base value).length < room) :
    Leaves room value base (numeral base value) :=
  itoa64Into_eq hbase hbase' hvalue (itoa64_eq hbase hvalue) hroom

/-- A value has 64 digits at most. -/
theorem numeral_length_le (hbase : 2 ≤ base) (hvalue : value < 2^64) :
    (numeral base value).length ≤ 64 := by
  apply numeral_length hbase (by omega)
  calc value < 2^64 := hvalue
    _ ≤ base^64 := Nat.pow_le_pow_left hbase 64

/-- The first loop ends with 64 digits in the array at most. -/
theorem itoa64Fill_ends (hbase : 2 ≤ base) (hvalue : value < 2^64) :
    ∃ temp' i, itoa64Fill base 66 temp 0 value = some (temp', i) ∧ i ≤ 64 := by
  have hlt : value < base^64 :=
    calc value < 2^64 := hvalue
      _ ≤ base^64 := Nat.pow_le_pow_left hbase 64
  have hroom : value < base^65 := hlt.trans_le (Nat.pow_le_pow_right (by omega) (by omega))
  have hlen : ((Nat.digits base value).map (fun d => digits.getD d 0)).length ≤ 64 := by
    rw [List.length_map]
    exact (Nat.digits_length_le_iff (by omega) _).mpr hlt
  obtain ⟨temp', hfill, -⟩ := itoa64Fill_eq temp (i := 0) (itoa64Loop_eq hbase hroom) (by omega)
  exact ⟨temp', _, hfill, by omega⟩

/-- A string is the numeral of one value. -/
theorem Canonical.value_eq (h : Canonical base value str) (h' : Canonical base value' str) :
    value = value' :=
  h.eval.symm.trans h'.eval

/-! ## `%p` -/

/-- `0x`, and 16 digits that stand for the pointer. -/
def IsPointer (ptr : BitVec 64) (text : List (BitVec 8)) : Prop :=
  ∃ ds, text = [chr '0', chr 'x'] ++ ds ∧ ds.length = 16 ∧ (∀ b ∈ ds, b ∈ digits) ∧
    evalNumeral 16 ds = ptr.toNat

/-- The numeral of a pointer fits into the buffer of `%p`, and is filled up to 16 digits. -/
theorem pointerInto_eq (ptr : BitVec 64) (buffer temp : ByteMemory) :
    pointerInto ptr buffer temp =
      some ([chr '0', chr 'x'] ++ zeroPadded 16 (numeral 16 ptr.toNat)) := by
  have hlen : (numeral 16 ptr.toNat).length ≤ 16 :=
    numeral_length (by omega) (by omega) ptr.isLt
  obtain ⟨buffer', hinto, hstrlen, hbytes⟩ := leaves_numeral 20 (by omega : 2 ≤ 16)
    (by omega) ptr.isLt (by omega) buffer temp
  rw [pointerInto, hinto, Option.bind_eq_bind, Option.bind_some, hstrlen, Option.bind_eq_bind,
    Option.bind_some, hbytes, zeroPadded, List.append_assoc]

/-- The same is written by the loop over the format. -/
theorem convert_pointer (k : Conversions) (cstring : BitVec 64 → List (BitVec 8))
    (ptr : BitVec 64) : k.convert cstring (chr 'p') ptr =
      some ([chr '0', chr 'x'] ++ zeroPadded 16 (numeral 16 ptr.toNat), 1) := by
  have hnumeral : itoa64 ptr.toNat 16 = some (numeral 16 ptr.toNat) :=
    itoa64_eq (by omega) ptr.isLt
  show (itoa64 ptr.toNat 16).map _ = _
  rw [hnumeral]
  rfl

theorem isPointer_zeroPadded (ptr : BitVec 64) :
    IsPointer ptr ([chr '0', chr 'x'] ++ zeroPadded 16 (numeral 16 ptr.toNat)) := by
  have hlen : (numeral 16 ptr.toNat).length ≤ 16 :=
    numeral_length (by omega) (by omega) ptr.isLt
  have hcanonical : Canonical 16 ptr.toNat (numeral 16 ptr.toNat) :=
    numeral_canonical (by omega) (le_refl 16)
  refine ⟨_, rfl, ?_, ?_, ?_⟩
  · rw [zeroPadded, List.length_append, List.length_replicate]
    omega
  · intro b hb
    rcases List.mem_append.mp hb with hb | hb
    · obtain rfl := List.eq_of_mem_replicate hb
      exact List.mem_cons_self ..
    · exact hcanonical.digit b hb
  · rw [zeroPadded, evalNumeral_zeros]
    exact hcanonical.eval

/-- For every base from 2 to 16, `itoa64` puts 64 digits at most into its array and leaves the
numeral of the value with a terminator, and two values do not have the same string. `%p` writes `0x`
and the 16 digits of the pointer. -/
theorem itoa64_canonical (base : ℕ) (hbase : 2 ≤ base) (hbase' : base ≤ 16) :
    (∃ text : ℕ → List (BitVec 8),
      (∀ value < 2^64, (∀ temp, ∃ temp' i,
          itoa64Fill base 66 temp 0 value = some (temp', i) ∧ i ≤ 64) ∧
        Canonical base value (text value) ∧ (text value).length ≤ 64 ∧
        ∀ room, (text value).length < room → Leaves room value base (text value)) ∧
      ∀ value < 2^64, ∀ value' < 2^64, text value = text value' → value = value') ∧
      ∀ ptr : BitVec 64, ∃ text, IsPointer ptr text ∧
        (∀ buffer temp, pointerInto ptr buffer temp = some text) ∧
        ∀ cstring, printfConversions.convert cstring (chr 'p') ptr = some (text, 1) ∧
          printfsConversions.convert cstring (chr 'p') ptr = some (text, 1) := by
  constructor
  · refine ⟨numeral base, fun value hvalue => ?_, fun value _ value' _ heq => ?_⟩
    · exact ⟨fun temp => itoa64Fill_ends hbase hvalue, numeral_canonical hbase hbase',
        numeral_length_le hbase hvalue, fun room => leaves_numeral room hbase hbase' hvalue⟩
    · have hcanonical : Canonical base value (numeral base value) :=
        numeral_canonical hbase hbase'
      have hcanonical' : Canonical base value' (numeral base value') :=
        numeral_canonical hbase hbase'
      rw [← heq] at hcanonical'
      exact hcanonical.value_eq hcanonical'
  · intro ptr
    exact ⟨_, isPointer_zeroPadded ptr, pointerInto_eq ptr, fun cstring =>
      ⟨convert_pointer _ cstring ptr, convert_pointer _ cstring ptr⟩⟩

/-- The base of `%p`. -/
theorem itoa64_canonical_sixteen :
    (∃ text : ℕ → List (BitVec 8),
      (∀ value < 2^64, (∀ temp, ∃ temp' i,
          itoa64Fill 16 66 temp 0 value = some (temp', i) ∧ i ≤ 64) ∧
        Canonical 16 value (text value) ∧ (text value).length ≤ 64 ∧
        ∀ room, (text value).length < room → Leaves room value 16 (text value)) ∧
      ∀ value < 2^64, ∀ value' < 2^64, text value = text value' → value = value') ∧
      ∀ ptr : BitVec 64, ∃ text, IsPointer ptr text ∧
        (∀ buffer temp, pointerInto ptr buffer temp = some text) ∧
        ∀ cstring, printfConversions.convert cstring (chr 'p') ptr = some (text, 1) ∧
          printfsConversions.convert cstring (chr 'p') ptr = some (text, 1) :=
  itoa64_canonical 16 (by omega) (by omega)

end Potatos.Buffer
