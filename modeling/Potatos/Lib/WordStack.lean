import Mathlib.Data.BitVec
import Mathlib.Data.List.Induction
import Mathlib.Tactic.Abel
import Potatos.Lib.ByteMemory

/-!
# A stack of words in a 64-bit address space

Addresses are words and wrap around. A push lowers the stack pointer by eight and stores a word
there. As long as the words fit into the address space they do not overlap, wherever the stack
pointer was: after any list of pushes the words are found from the stack pointer on, the last one
first (`word_pushAll`).

The second part is about any order of pushes and pops. While the depth stays within a limit, every
word is stored below where the stack pointer was first, and not farther from there than the limit
(`stored_below`): the stack pointer has to start behind the space that is kept for the stack.
-/

namespace Lib

/-- Bytes, by 64-bit address. -/
abbrev Memory64 := BitVec 64 → BitVec 8

/-- The memory by the distance from `a`. -/
def Memory64.behind (m : Memory64) (a : BitVec 64) : ByteMemory :=
  fun k => m (a + BitVec.ofNat 64 k)

/-- The word in the eight bytes from `a` on, the low byte first. -/
def load64 (m : Memory64) (a : BitVec 64) : BitVec 64 := BitVec.ofNat 64 (load 8 (m.behind a) 0)

/-- Write a word to the eight bytes from `a` on. -/
def store64 (m : Memory64) (a v : BitVec 64) : Memory64 :=
  fun x => store 8 (m.behind a) 0 v.toNat (x - a).toNat

variable {m : Memory64} {a b v : BitVec 64} {k n : ℕ}

/-- What a store leaves behind an address that is `n` bytes behind its own. -/
theorem behind_store64 (h : b = a + BitVec.ofNat 64 n) (hk : n + k < 2^64) :
    (store64 m a v).behind b k = store 8 (m.behind a) 0 v.toNat (n + k) := by
  have hdist : (b + BitVec.ofNat 64 k - a).toNat = n + k := by
    have hsum : b + BitVec.ofNat 64 k - a = BitVec.ofNat 64 (n + k) := by
      rw [h, BitVec.ofNat_add]
      abel
    rw [hsum, BitVec.toNat_ofNat, Nat.mod_eq_of_lt hk]
  unfold Memory64.behind store64
  rw [hdist]
  rfl

/-- A load sees a store to the same word. -/
theorem load64_store64_self : load64 (store64 m a v) a = v := by
  have hbytes : load 8 ((store64 m a v).behind a) 0 =
      load 8 (store 8 (m.behind a) 0 v.toNat) 0 := by
    apply load_congr
    intro k _ hk
    rw [behind_store64 (n := 0) (by simp) (by omega), Nat.zero_add]
  rw [load64, hbytes, load_store_self, Nat.mod_eq_of_lt (by omega), BitVec.ofNat_toNat,
    BitVec.setWidth_eq]

/-- A load does not see a store to a word that is apart. -/
theorem load64_store64_of_apart (h : b = a + BitVec.ofNat 64 n) (hle : 8 ≤ n)
    (hlt : n + 8 ≤ 2^64) : load64 (store64 m a v) b = load64 m b := by
  have hbytes : load 8 ((store64 m a v).behind b) 0 = load 8 (m.behind b) 0 := by
    apply load_congr
    intro k _ hk
    rw [behind_store64 h (by omega), store_of_out (by omega)]
    unfold Memory64.behind
    rw [h, BitVec.ofNat_add, BitVec.add_assoc]
  rw [load64, hbytes, load64]

/-- A stack pointer and the memory. -/
structure WordStack where
  sp : BitVec 64
  mem : Memory64

namespace WordStack

/-- The stack pointer is lowered first. -/
def push (s : WordStack) (v : BitVec 64) : WordStack := ⟨s.sp - 8, store64 s.mem (s.sp - 8) v⟩

def pushAll (s : WordStack) (vs : List (BitVec 64)) : WordStack := vs.foldl push s

/-- The words from the stack pointer on. -/
def word (s : WordStack) (k : ℕ) : BitVec 64 := load64 s.mem (s.sp + BitVec.ofNat 64 (8 * k))

variable {s : WordStack} {vs ws : List (BitVec 64)}

theorem pushAll_append : s.pushAll (vs ++ ws) = (s.pushAll vs).pushAll ws := List.foldl_append

/-- The word that was pushed last is at the stack pointer. -/
theorem word_push_zero : (s.push v).word 0 = v := by
  have hsp : s.sp - 8 + BitVec.ofNat 64 (8 * 0) = s.sp - 8 := BitVec.add_zero _
  unfold push word
  rw [hsp, load64_store64_self]

/-- The words that were there are left. -/
theorem load64_push (hk : 8 * (k + 2) ≤ 2^64) :
    load64 (s.push v).mem (s.sp + BitVec.ofNat 64 (8 * k)) = s.word k := by
  have hsp : s.sp + BitVec.ofNat 64 (8 * k) = s.sp - 8 + BitVec.ofNat 64 (8 * (k + 1)) := by
    have h8 : BitVec.ofNat 64 8 = 8 := rfl
    rw [Nat.mul_succ, BitVec.ofNat_add, h8]
    abel
  exact load64_store64_of_apart hsp (by omega) (by omega)

/-- They come behind the one that was pushed. -/
theorem word_push_succ (hk : 8 * (k + 2) ≤ 2^64) : (s.push v).word (k + 1) = s.word k := by
  have hsp : (s.push v).sp + BitVec.ofNat 64 (8 * (k + 1)) = s.sp + BitVec.ofNat 64 (8 * k) := by
    have h8 : BitVec.ofNat 64 8 = 8 := rfl
    show s.sp - 8 + _ = _
    rw [Nat.mul_succ, BitVec.ofNat_add, h8]
    abel
  rw [word, hsp, load64_push hk]

/-- After the pushes, the words are there from the last one to the first one. -/
theorem word_pushAll (hlen : 8 * vs.length ≤ 2^64) (hk : k < vs.length) :
    (s.pushAll vs).word k = vs.reverse.getD k 0 := by
  induction vs using List.reverseRecOn generalizing k with
  | nil => exact absurd hk (Nat.not_lt_zero _)
  | append_singleton vs v ih =>
    have hpush : s.pushAll (vs ++ [v]) = (s.pushAll vs).push v := pushAll_append
    simp only [List.length_append, List.length_singleton] at hlen hk
    simp only [hpush, List.reverse_append, List.reverse_singleton, List.singleton_append]
    cases k with
    | zero => exact word_push_zero
    | succ k =>
      rw [word_push_succ (by omega), ih (by omega) (by omega)]
      rfl

/-- A push writes the eight bytes below the stack pointer, and lowers it to them. -/
theorem push_spec (hroom : 8 ≤ s.sp.toNat) :
    (s.push v).sp.toNat = s.sp.toNat - 8 ∧
      ∀ x, x.toNat < s.sp.toNat - 8 ∨ s.sp.toNat ≤ x.toNat → (s.push v).mem x = s.mem x := by
  have hsp : (s.sp - 8).toNat = s.sp.toNat - 8 := by
    have hlt := s.sp.isLt
    have h8 : (8 : BitVec 64).toNat = 8 := rfl
    rw [BitVec.toNat_sub, h8]
    omega
  refine ⟨hsp, fun x hx => ?_⟩
  have hfar : 8 ≤ (x - (s.sp - 8)).toNat := by
    have hlt := s.sp.isLt
    have hltx := x.isLt
    rw [BitVec.toNat_sub, hsp]
    omega
  show store 8 (s.mem.behind (s.sp - 8)) 0 v.toNat (x - (s.sp - 8)).toNat = _
  rw [store_of_out (by omega), Memory64.behind, BitVec.ofNat_toNat, BitVec.setWidth_eq]
  congr 1
  abel

/-- The pushes of a list write the bytes below the stack pointer that the words need. -/
theorem pushAll_spec (hroom : 8 * vs.length ≤ s.sp.toNat) :
    (s.pushAll vs).sp.toNat = s.sp.toNat - 8 * vs.length ∧
      ∀ x, x.toNat < s.sp.toNat - 8 * vs.length ∨ s.sp.toNat ≤ x.toNat →
        (s.pushAll vs).mem x = s.mem x := by
  induction vs generalizing s with
  | nil => exact ⟨rfl, fun _ _ => rfl⟩
  | cons v vs ih =>
    rw [List.length_cons] at hroom ⊢
    obtain ⟨hsp, hmem⟩ := push_spec (s := s) (v := v) (by omega)
    obtain ⟨hsp', hmem'⟩ := ih (s := s.push v) (by omega)
    have hpush : s.pushAll (v :: vs) = (s.push v).pushAll vs := rfl
    rw [hpush]
    exact ⟨by omega, fun x hx => (hmem' x (by omega)).trans (hmem x (by omega))⟩

/-! ## Pushes and pops -/

/-- An operation on a stack. -/
inductive Op where
  | push (v : BitVec 64)
  | pop

/-- The word is left where it is. -/
def pop (s : WordStack) : WordStack := { s with sp := s.sp + 8 }

def exec (s : WordStack) : Op → WordStack
  | .push v => s.push v
  | .pop => s.pop

def execAll (s : WordStack) (ops : List Op) : WordStack := ops.foldl exec s

/-- Where the operations store words. -/
def stored : WordStack → List Op → List (BitVec 64)
  | _, [] => []
  | s, .push v :: ops => (s.sp - 8) :: stored (s.push v) ops
  | s, .pop :: ops => stored s.pop ops

/-- From `depth` bytes on the stack on, there are never less than none and never more than the
limit. -/
def InDepth (limit : ℕ) : ℕ → List Op → Prop
  | _, [] => True
  | depth, .push _ :: ops => depth + 8 ≤ limit ∧ InDepth limit (depth + 8) ops
  | depth, .pop :: ops => 8 ≤ depth ∧ InDepth limit (depth - 8) ops

variable {ops : List Op} {limit depth : ℕ} {top : BitVec 64}

/-- Every word is stored below the first stack pointer, within the limit. -/
theorem stored_below (h : InDepth limit depth ops) (hsp : s.sp = top - BitVec.ofNat 64 depth)
    (ha : a ∈ s.stored ops) : ∃ k, 8 ≤ k ∧ k ≤ limit ∧ a = top - BitVec.ofNat 64 k := by
  have h8 : BitVec.ofNat 64 8 = 8 := rfl
  induction ops generalizing s depth with
  | nil => cases ha
  | cons op ops ih =>
    cases op with
    | push v =>
      have hlower : s.sp - 8 = top - BitVec.ofNat 64 (depth + 8) := by
        rw [hsp, BitVec.ofNat_add, h8]
        abel
      rcases List.mem_cons.mp ha with rfl | ha
      · exact ⟨depth + 8, Nat.le_add_left .., h.1, hlower⟩
      · exact ih h.2 hlower ha
    | pop =>
      have hraise : s.sp + 8 = top - BitVec.ofNat 64 (depth - 8) := by
        have hdepth : BitVec.ofNat 64 depth = BitVec.ofNat 64 (depth - 8) + 8 := by
          rw [← h8, ← BitVec.ofNat_add, Nat.sub_add_cancel h.1]
        rw [hsp, hdepth]
        abel
      exact ih h.2 hraise ha

/-- Without a push nothing is stored. -/
theorem execAll_of_no_push (h : ∀ v, Op.push v ∉ ops) :
    s.stored ops = [] ∧ (s.execAll ops).mem = s.mem := by
  induction ops generalizing s with
  | nil => exact ⟨rfl, rfl⟩
  | cons op ops ih =>
    cases op with
    | push v => exact absurd List.mem_cons_self (h v)
    | pop => exact ih (s := s.pop) (fun v hv => h v (List.mem_cons_of_mem _ hv))

/-- With one something is. -/
theorem stored_ne_nil (h : Op.push v ∈ ops) : s.stored ops ≠ [] := by
  induction ops generalizing s with
  | nil => cases h
  | cons op ops ih =>
    cases op with
    | push v => exact List.cons_ne_nil _ _
    | pop => exact ih ((List.mem_cons.mp h).resolve_left Op.noConfusion)

/-- A byte below `top` is not in a block that starts there. -/
theorem not_mem_block (top : BitVec 64) {k size : ℕ} (hk : 0 < k) (hsize : k + size ≤ 2^64) :
    ¬ (top.toNat ≤ (top - BitVec.ofNat 64 k).toNat ∧
      (top - BitVec.ofNat 64 k).toNat < top.toNat + size) := by
  rw [BitVec.toNat_sub, BitVec.toNat_ofNat]
  have htop := top.isLt
  omega

end WordStack

end Lib
