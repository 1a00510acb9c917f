import Potatos.Lib.ByteMemory
import Potatos.Sched.InterruptStub
import Potatos.Sched.RoundRobin

/-!
# The interrupt descriptor table

`set_idt_entry`, `init_idt` and `load_idt` of `src/arch/x86_64/idt/idt.c`, on the bytes of the
table, and how the processor reads a gate from them. After `init_idt` the table has the 22 gates
that it sets, whatever was there before and wherever the routines are (`gate_initIdt`).
-/

namespace Potatos.Idt

open Lib

def IDT_SIZE : ℕ := 256

def CODE_SELECTOR : ℕ := 0x08

def INTERRUPT_GATE : ℕ := 0b1110

def PRESENT_BIT : ℕ := 1 <<< 7

def DPL (dpl : ℕ) : ℕ := (dpl &&& 0b11) <<< 5

/-- The routines of `idt_stub.asm`: `interrupt_service_routine_n`, and
`interrupt_service_routine_err_n`. -/
inductive Routine where
  | plain (n : ℕ)
  | err (n : ℕ)
  deriving DecidableEq

/-- The instructions of a routine up to the call. -/
def Routine.code : Routine → List Stub.Instr
  | .plain n => Stub.interruptRoutine (BitVec.ofNat 64 n)
  | .err n => Stub.interruptErrRoutine (BitVec.ofNat 64 n)

/-! ## The table -/

/-- `set_idt_entry`. An `interrupt_descriptor` is packed: `address_low`, `selector`, `ist`, `flags`,
`address_mid`, `address_high` and `reserved`, of 2, 2, 1, 1, 2, 4 and 4 bytes. -/
def setIdtEntry (m : ByteMemory) (idt vector handler_addr dpl : ℕ) : ByteMemory :=
  let entry := idt + 16 * vector
  let m := store 2 m entry (handler_addr &&& 0xFFFF)
  let m := store 2 m (entry + 6) (handler_addr >>> 16 &&& 0xFFFF)
  let m := store 4 m (entry + 8) (handler_addr >>> 32)
  let m := store 2 m (entry + 2) CODE_SELECTOR
  let m := store 1 m (entry + 5) (PRESENT_BIT ||| DPL dpl ||| INTERRUPT_GATE)
  store 1 m (entry + 4) 0

/-- The body of the loop of `init_idt`. -/
def clearEntry (idt : ℕ) (m : ByteMemory) (i : ℕ) : ByteMemory :=
  let entry := idt + 16 * i
  let m := store 1 m (entry + 5) 0
  let m := store 1 m (entry + 4) 0
  let m := store 4 m (entry + 12) 0
  let m := store 2 m (entry + 2) 0
  let m := store 2 m entry 0
  let m := store 2 m (entry + 6) 0
  store 4 m (entry + 8) 0

/-- The calls of `set_idt_entry` in `init_idt`. -/
def entries : List (ℕ × Routine) :=
  [(0x00, .plain 0), (0x01, .plain 1), (0x02, .plain 2), (0x03, .plain 3), (0x04, .plain 4),
    (0x05, .plain 5), (0x06, .plain 6), (0x07, .plain 7), (0x08, .err 8), (0x09, .plain 9),
    (0x0A, .err 10), (0x0B, .err 11), (0x0C, .err 12), (0x0D, .err 13), (0x0E, .err 14),
    (0x0F, .plain 15), (0x10, .plain 16), (0x11, .err 17), (0x12, .plain 18),
    (0x20, .plain 32), (0x21, .plain 33), (0x22, .plain 34)]

/-- `init_idt`, up to the programming of the interrupt controllers, with the addresses that the
linker gave to the routines. -/
def initIdt (m : ByteMemory) (idt : ℕ) (address : Routine → ℕ) : ByteMemory :=
  entries.foldl (fun m e => setIdtEntry m idt e.1 (address e.2) 0)
    ((List.range IDT_SIZE).foldl (clearEntry idt) m)

/-- `idtr`. -/
structure Idtr where
  limit : ℕ
  base : ℕ

/-- `load_idt`. -/
def loadIdt (idt : ℕ) : Idtr := ⟨0xFFF, idt⟩

/-! ## The processor -/

/-- A gate. -/
structure Gate where
  handler : ℕ
  selector : ℕ
  ist : ℕ
  gateType : ℕ
  dpl : ℕ
  deriving DecidableEq

/-- The gate of a vector, if it is within the limit and present. -/
def gate (m : ByteMemory) (r : Idtr) (vector : ℕ) : Option Gate :=
  let entry := r.base + 16 * vector
  let flags := load 1 m (entry + 5)
  if 16 * vector + 15 ≤ r.limit ∧ flags / 128 % 2 = 1 then
    some ⟨load 2 m entry + 2^16 * load 2 m (entry + 6) + 2^32 * load 4 m (entry + 8),
      load 2 m (entry + 2), load 1 m (entry + 4) % 8, flags % 16, flags / 32 % 4⟩
  else none

/-- The exceptions with an error code. -/
def pushesErrorCode (vector : ℕ) : Bool := [8, 10, 11, 12, 13, 14, 17, 21, 29, 30].contains vector

/-- The gate of a routine, which clears the interrupt flag. -/
def gateOf (handler_addr : ℕ) : Gate := ⟨handler_addr, 8, 0, 14, 0⟩

variable {m m' : ByteMemory} {idt vector handler_addr v x : ℕ} {address : Routine → ℕ}
  {r : Routine} {es : List (ℕ × Routine)}

/-! ## What `init_idt` leaves -/

/-- A gate is read from the sixteen bytes of its entry. -/
theorem gate_congr {t : Idtr}
    (h : ∀ x, t.base + 16 * v ≤ x → x < t.base + 16 * v + 16 → m x = m' x) :
    gate m t v = gate m' t v := by
  have hload : ∀ n k, n + k ≤ 16 →
      load n m (t.base + 16 * v + k) = load n m' (t.base + 16 * v + k) :=
    fun n k hk => load_congr (fun x h1 h2 => h x (by omega) (by omega))
  have hflags := hload 1 5 (by omega)
  have hlow := hload 2 0 (by omega)
  have hmid := hload 2 6 (by omega)
  have hhigh := hload 4 8 (by omega)
  have hselector := hload 2 2 (by omega)
  have hist := hload 1 4 (by omega)
  rw [Nat.add_zero] at hlow
  unfold gate
  dsimp only
  rw [hflags, hlow, hmid, hhigh, hselector, hist]

/-- The three parts of an address give it back. -/
theorem address_parts (h : handler_addr < 2^64) :
    (handler_addr &&& 0xFFFF) % 256^2 + 2^16 * ((handler_addr >>> 16 &&& 0xFFFF) % 256^2) +
      2^32 * (handler_addr >>> 32 % 256^4) = handler_addr := by
  have hlow : handler_addr &&& 0xFFFF = handler_addr % 2^16 :=
    Nat.and_two_pow_sub_one_eq_mod handler_addr 16
  have hmid : handler_addr >>> 16 &&& 0xFFFF = handler_addr >>> 16 % 2^16 :=
    Nat.and_two_pow_sub_one_eq_mod (handler_addr >>> 16) 16
  rw [hlow, hmid, Nat.shiftRight_eq_div_pow, Nat.shiftRight_eq_div_pow]
  omega

/-- The gate that was set. -/
theorem gate_setIdtEntry_self (hv : v < IDT_SIZE) (h : handler_addr < 2^64) :
    gate (setIdtEntry m idt v handler_addr 0) (loadIdt idt) v = some (gateOf handler_addr) := by
  have hlimit : 16 * v + 15 ≤ 0xFFF := by
    unfold IDT_SIZE at hv
    omega
  have hflags : (PRESENT_BIT ||| DPL 0 ||| INTERRUPT_GATE) % 256^1 = 142 := by decide
  have hselector : CODE_SELECTOR % 256^2 = 8 := by decide
  unfold gate setIdtEntry loadIdt
  dsimp only
  simp (disch := omega) only [load_store_of_apart, load_store_self]
  rw [hflags, hselector, if_pos ⟨hlimit, by decide⟩, address_parts h]
  rfl

/-- A store outside an entry leaves its gate. -/
theorem gate_store {n a b : ℕ} (h : a + n ≤ idt + 16 * v ∨ idt + 16 * v + 16 ≤ a) :
    gate (store n m a b) (loadIdt idt) v = gate m (loadIdt idt) v := by
  refine gate_congr (fun x h1 h2 => store_of_out ?_)
  have hbase : (loadIdt idt).base = idt := rfl
  rw [hbase] at h1 h2
  omega

/-- The other gates stay. -/
theorem gate_setIdtEntry_of_ne (hne : v ≠ vector) :
    gate (setIdtEntry m idt vector handler_addr 0) (loadIdt idt) v =
      gate m (loadIdt idt) v := by
  unfold setIdtEntry
  dsimp only
  simp (disch := omega) only [gate_store]

/-- A cleared entry has no gate. -/
theorem gate_clearEntry_self : gate (clearEntry idt m v) (loadIdt idt) v = none := by
  unfold gate clearEntry loadIdt
  dsimp only
  simp (disch := omega) only [load_store_of_apart, load_store_self]
  rw [if_neg]
  exact fun h => absurd h.2 (by decide)

theorem gate_clearEntry_of_ne (hne : v ≠ vector) :
    gate (clearEntry idt m vector) (loadIdt idt) v = gate m (loadIdt idt) v := by
  unfold clearEntry
  dsimp only
  simp (disch := omega) only [gate_store]

/-- The loop clears every entry below its limit. -/
theorem gate_clear {n : ℕ} (hv : v < n) :
    gate ((List.range n).foldl (clearEntry idt) m) (loadIdt idt) v = none := by
  induction n with
  | zero => exact absurd hv (Nat.not_lt_zero v)
  | succ n ih =>
    rw [List.range_succ, List.foldl_append, List.foldl_cons, List.foldl_nil]
    obtain rfl | hlt : v = n ∨ v < n := by omega
    · exact gate_clearEntry_self
    · rw [gate_clearEntry_of_ne (by omega), ih hlt]

/-- Calls for different vectors set a gate each. -/
theorem gate_setAll (haddress : ∀ e ∈ es, address e.2 < 2^64) (hv : v < IDT_SIZE)
    (hnodup : (es.map Prod.fst).Nodup) :
    gate (es.foldl (fun m e => setIdtEntry m idt e.1 (address e.2) 0) m) (loadIdt idt) v =
      ((es.lookup v).map (fun r => gateOf (address r))).or (gate m (loadIdt idt) v) := by
  induction es generalizing m with
  | nil => rfl
  | cons e es ih =>
    obtain ⟨vector, r⟩ := e
    obtain ⟨hfresh, hnodup⟩ := List.nodup_cons.mp hnodup
    obtain ⟨hr, haddress⟩ := List.forall_mem_cons.mp haddress
    rw [List.foldl_cons, ih haddress hnodup, List.lookup_cons]
    by_cases hvec : v = vector
    · -- No later call is for this vector.
      subst hvec
      have hnone : es.lookup v = none := by
        refine List.lookup_eq_none_iff.mpr (fun p hp => ?_)
        have hmem : p.1 ∈ es.map Prod.fst := List.mem_map_of_mem hp
        exact bne_iff_ne.mpr (fun h => hfresh (h ▸ hmem))
      rw [hnone, beq_self_eq_true, gate_setIdtEntry_self hv hr]
      rfl
    · have hbeq : (v == vector) = false := by simpa using hvec
      rw [hbeq, gate_setIdtEntry_of_ne hvec]

/-- The entries of the table after `init_idt`. -/
theorem gate_of_entries (haddress : ∀ e ∈ entries, address e.2 < 2^64) (hv : v < IDT_SIZE) :
    gate (initIdt m idt address) (loadIdt idt) v =
      (entries.lookup v).map (fun r => gateOf (address r)) := by
  have hnodup : (entries.map Prod.fst).Nodup := by decide
  unfold initIdt
  rw [gate_setAll haddress hv hnodup, gate_clear hv, Option.or_none]

/-- After `init_idt`, a vector has a gate if there was a call for it, and that is to its routine. -/
theorem gate_initIdt (m : ByteMemory) (idt : ℕ) (address : Routine → ℕ)
    (haddress : ∀ e ∈ entries, address e.2 < 2^64) (v : ℕ) :
    gate (initIdt m idt address) (loadIdt idt) v =
      (entries.lookup v).map (fun r => gateOf (address r)) := by
  by_cases hv : v < IDT_SIZE
  · exact gate_of_entries haddress hv
  · -- The limit is that of the 256 entries.
    have hlt : ∀ p ∈ entries, p.1 < IDT_SIZE := by decide
    have hnone : entries.lookup v = none := by
      refine List.lookup_eq_none_iff.mpr (fun p hp => ?_)
      exact bne_iff_ne.mpr (fun h => hv (h ▸ hlt p hp))
    have hlimit : ¬ 16 * v + 15 ≤ (loadIdt idt).limit := by
      show ¬ 16 * v + 15 ≤ 0xFFF
      unfold IDT_SIZE at hv
      omega
    unfold gate
    dsimp only
    rw [hnone, if_neg (fun h => hlimit h.1)]
    rfl

/-- Routines of 32 bytes, one behind the other. -/
def routinesFrom (start : ℕ) : Routine → ℕ
  | .plain n => start + 64 * n
  | .err n => start + 64 * n + 32

/-- The gate for page faults, in a table that held ones. -/
theorem gate_initIdt_page_fault :
    gate (initIdt (fun _ => 0xFF) 0x200000 (routinesFrom 0xFFFFFFFF80100000)) (loadIdt 0x200000)
      14 = some (gateOf 0xFFFFFFFF801003A0) :=
  gate_initIdt (fun _ => 0xFF) 0x200000 (routinesFrom 0xFFFFFFFF80100000) (by decide) 14

/-- A routine expects the error code of its vector on the stack if and only if the processor pushes
one. -/
theorem entries_routine : ∀ e ∈ entries,
    e.2 = if pushesErrorCode e.1 then .err e.1 else .plain e.1 := by
  decide

end Potatos.Idt
