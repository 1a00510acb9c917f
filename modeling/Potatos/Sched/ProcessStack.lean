import Potatos.Lib.WordStack
import Potatos.Mem.KheapRuns

/-!
# The stack of a process

`alloc_stack` and `create_process` of `src/scheluding/scheluder.c` on the bytes of the heap, and the
pushes and pops of a process that starts with the context that they leave. The stack of a
processor grows down, but `create_process` stores the address that `kmalloc` returned, the lowest of
the block, as the stack pointer. So no byte that the process pushes is in its block: the first ones
are those of the header of the block itself (`runsOnBlock_iff`).

The console output is left out. Where `create_process` hangs without a stack, and where a walk of
the heap does not end within the fuel, there is no process.
-/

namespace Potatos

open Lib

namespace Heap

variable (h : Heap)

/-- The eight bytes at an address. -/
def word (a : ℕ) : ℕ := load 8 h.mem a

/-- Write the eight bytes at an address. -/
def setWord (a v : ℕ) : Heap := { h with mem := store 8 h.mem a v }

/-- `strcpy`. -/
def strcpy : Heap → ℕ → List (BitVec 8) → Heap
  | h, destination, [] => { h with mem := Function.update h.mem destination 0 }
  | h, destination, c :: source =>
    strcpy { h with mem := Function.update h.mem destination c } (addw destination 1) source

end Heap

/-- What `create_process` leaves: the `process_t`, its `cpu_status`, its stack, and the heap. -/
structure CreatedProcess where
  process : ℕ
  context : ℕ
  stack : ℕ
  heap : Heap

/-- The fields that `create_process` stores before it gets a stack. -/
def initContext (h : Heap) (cpu entry_point arg : ℕ) : Heap :=
  let h := h.setWord (addw cpu 120) 0
  let h := h.setWord (addw cpu 128) 0
  let h := h.setWord (addw cpu 136) entry_point
  let h := h.setWord (addw cpu 64) arg
  let h := h.setWord (addw cpu 144) 0x8
  let h := h.setWord (addw cpu 168) 0x10
  h.setWord (addw cpu 152) 0x202

/-- `alloc_stack`. -/
def allocStack (h : Heap) (fuel : ℕ) : Option Heap.Allocation := h.kmalloc fuel (1024 * 16)

/-- `create_process`. -/
def createProcess (h : Heap) (fuel : ℕ) (name : List (BitVec 8)) (entry_point arg : ℕ) :
    Option CreatedProcess := do
  let r ← h.kmalloc fuel 48
  let new_process := r.ptr
  let r ← r.heap.kmalloc fuel 176
  let h := r.heap.setWord (addw new_process 40) r.ptr
  let cpu := h.word (addw new_process 40)
  let r ← allocStack (initContext h cpu entry_point arg) fuel
  let stack_ponter := r.ptr
  if stack_ponter = 0 then none
  else
    let h := r.heap.setWord (addw cpu 160) stack_ponter
    let h := h.setWord (addw cpu 80) 0
    some ⟨new_process, cpu, stack_ponter, h.strcpy (addw new_process 4) name⟩

/-- The processor when the context of a process has been restored: `iret_rsp` is at offset 160 of
the `cpu_status`, which is at offset 40 of the `process_t`. -/
def startProcess (h : Heap) (process : ℕ) : WordStack where
  sp := BitVec.ofNat 64 (h.word (addw (h.word (addw process 40)) 160))
  mem := fun a => h.mem a.toNat

/-- The process runs on its block: it stores there only, and every header of the heap and every
other block is left. -/
structure RunsOnBlock (r : CreatedProcess) (live : List (ℕ × ℕ)) (ops : List WordStack.Op) :
    Prop where
  stored : ∀ a ∈ (startProcess r.heap r.process).stored ops, ∀ k < 8,
    Client.InBlock (a + BitVec.ofNat 64 k).toNat (r.stack, 1024 * 16)
  headers : ∀ a, Client.OnChain r.heap a → ∀ x, a ≤ x → x < a + 9 →
    ((startProcess r.heap r.process).execAll ops).mem (BitVec.ofNat 64 x) = r.heap.mem x
  blocks : ∀ b ∈ (r.process, 48) :: (r.context, 176) :: live, ∀ x, Client.InBlock x b →
    ((startProcess r.heap r.process).execAll ops).mem (BitVec.ofNat 64 x) = r.heap.mem x

variable {c : Client} {nodes : List Node} {e a b n v x fuel : ℕ} {h : Heap}
  {name : List (BitVec 8)} {entry_point arg : ℕ} {r : CreatedProcess} {ops : List WordStack.Op}

/-! ## What `create_process` writes -/

theorem Heap.setWord_frame (hx : x < a ∨ a + 8 ≤ x) : (h.setWord a v).mem x = h.mem x :=
  store_of_out hx

theorem Heap.word_setWord (hv : v < 2^64) : (h.setWord a v).word a = v := by
  have h8 : (256 : ℕ)^8 = 2^64 := by norm_num
  rw [word, setWord, load_store_self, h8, Nat.mod_eq_of_lt hv]

/-- The copy of a string and its end. -/
theorem Heap.strcpy_frame (hroom : a + name.length < 2^64)
    (hx : x < a ∨ a + name.length + 1 ≤ x) : (h.strcpy a name).mem x = h.mem x := by
  induction name generalizing h a with
  | nil =>
    rw [List.length_nil] at hx
    exact Function.update_of_ne (by omega) ..
  | cons c name ih =>
    rw [List.length_cons] at hroom hx
    rw [strcpy, addw_of_lt (by omega), ih (by omega) (by omega)]
    exact Function.update_of_ne (by omega) ..

/-- The fields of the context are in its block. -/
theorem initContext_frame (hroom : a + 176 ≤ 2^64) (hx : x < a ∨ a + 176 ≤ x) :
    (initContext h a entry_point arg).mem x = h.mem x := by
  have hfield : ∀ (h : Heap) {k v}, k + 8 ≤ 176 → (h.setWord (addw a k) v).mem x = h.mem x := by
    intro h k v hk
    rw [addw_of_lt (by omega)]
    exact Heap.setWord_frame (by omega)
  unfold initContext
  dsimp only
  rw [hfield _ (by omega), hfield _ (by omega), hfield _ (by omega), hfield _ (by omega),
    hfield _ (by omega), hfield _ (by omega), hfield _ (by omega)]

/-! ## The three blocks -/

/-- A live block ends with the chain. -/
theorem Client.Owned.block_end (ho : c.Owned nodes e) (hb : (b, n) ∈ c.live) : b + n ≤ e := by
  obtain ⟨nd, hnd, hp, -, hn⟩ := ho.owner (b, n) hb
  have hbounds := ho.chain.bounds hnd
  dsimp only at hp hn
  omega

/-- The block that was allocated last is apart from the others. -/
theorem Client.Owned.apart_head {b b' : ℕ × ℕ} {live : List (ℕ × ℕ)}
    (ho : Client.Owned ⟨h, b :: live⟩ nodes e) (hb' : b' ∈ live) :
    b.1 + b.2 ≤ b'.1 ∨ b'.1 + b'.2 ≤ b.1 := by
  have hfresh : b.1 ∉ live.map Prod.fst := (List.nodup_cons.mp ho.distinct).1
  refine ho.apart List.mem_cons_self (List.mem_cons_of_mem _ hb') (fun heq => hfresh ?_)
  rw [heq]
  exact List.mem_map_of_mem hb'

theorem Heap.word_congr {h' : Heap} (hsame : ∀ x, a ≤ x → x < a + 8 → h'.mem x = h.mem x) :
    h'.word a = h.word a :=
  load_congr hsame

theorem Heap.strcpy_fields : (h.strcpy a name).heap_head = h.heap_head ∧
    (h.strcpy a name).heap_start = h.heap_start := by
  induction name generalizing h a with
  | nil => exact ⟨rfl, rfl⟩
  | cons c name ih => exact ih

section Blocks

variable {p q s : ℕ} {live : List (ℕ × ℕ)}

/-- Up to the fields of the context. -/
theorem initContext_spec (entry_point arg : ℕ)
    (ho : Client.Owned ⟨h, (q, 176) :: (p, 48) :: live⟩ nodes e) :
    Client.Owned ⟨initContext (h.setWord (addw p 40) q) q entry_point arg,
        (q, 176) :: (p, 48) :: live⟩ nodes e ∧
      (initContext (h.setWord (addw p 40) q) q entry_point arg).word (addw p 40) = q := by
  have hroom := ho.room
  have hp := ho.block_end (List.mem_cons_of_mem _ List.mem_cons_self)
  have hq := ho.block_end List.mem_cons_self
  have hapart := ho.apart_head List.mem_cons_self
  dsimp only at hapart
  rw [addw_of_lt (by omega)]
  constructor
  · refine ho.write rfl rfl (fun x hx => ?_)
    have hxq := hx (q, 176) List.mem_cons_self
    have hxp := hx (p, 48) (List.mem_cons_of_mem _ List.mem_cons_self)
    unfold Client.InBlock at hxq hxp
    rw [initContext_frame (by omega) (by omega)]
    exact Heap.setWord_frame (by omega)
  · calc (initContext (h.setWord (p + 40) q) q entry_point arg).word (p + 40)
        = (h.setWord (p + 40) q).word (p + 40) :=
          Heap.word_congr (fun x _ _ => initContext_frame (by omega) (by omega))
      _ = q := Heap.word_setWord (by omega)

/-- From the stack on. -/
theorem setStack_spec
    (ho : Client.Owned ⟨h, (s, 1024 * 16) :: (q, 176) :: (p, 48) :: live⟩ nodes e)
    (hapart : q + 176 ≤ p ∨ p + 48 ≤ q) (hname : name.length < 32)
    (hcontext : h.word (addw p 40) = q) :
    ∃ h', ((h.setWord (addw q 160) s).setWord (addw q 80) 0).strcpy (addw p 4) name = h' ∧
      Client.Owned ⟨h', (s, 1024 * 16) :: (q, 176) :: (p, 48) :: live⟩ nodes e ∧
      h'.word (addw p 40) = q ∧ h'.word (addw q 160) = s := by
  have hroom := ho.room
  have hs := ho.block_end List.mem_cons_self
  have hmemq : (q, 176) ∈ (s, 1024 * 16) :: (q, 176) :: (p, 48) :: live := by simp
  have hmemp : (p, 48) ∈ (s, 1024 * 16) :: (q, 176) :: (p, 48) :: live := by simp
  have hq := ho.block_end hmemq
  have hp := ho.block_end hmemp
  rw [addw_of_lt (by omega : p + 40 < 2^64)] at hcontext ⊢
  rw [addw_of_lt (by omega : p + 4 < 2^64), addw_of_lt (by omega : q + 160 < 2^64),
    addw_of_lt (by omega : q + 80 < 2^64)]
  -- What is stored is in the context, and in the name of the process.
  have hframe : ∀ x, (x < q + 80 ∨ q + 88 ≤ x) → (x < p + 4 ∨ p + 36 ≤ x) →
      (((h.setWord (q + 160) s).setWord (q + 80) 0).strcpy (p + 4) name).mem x =
        (h.setWord (q + 160) s).mem x := by
    intro x hxq hxp
    rw [Heap.strcpy_frame (by omega) (by omega)]
    exact Heap.setWord_frame (by omega)
  refine ⟨_, rfl, ?_, ?_, ?_⟩
  · refine ho.write Heap.strcpy_fields.1 Heap.strcpy_fields.2 (fun x hx => ?_)
    have hxq := hx (q, 176) hmemq
    have hxp := hx (p, 48) hmemp
    unfold Client.InBlock at hxq hxp
    rw [hframe x (by omega) (by omega)]
    exact Heap.setWord_frame (by omega)
  · rw [Heap.word_congr (fun x _ _ => hframe x (by omega) (by omega)), ← hcontext]
    exact Heap.word_congr (fun x _ _ => Heap.setWord_frame (by omega))
  · rw [Heap.word_congr (fun x _ _ => hframe x (by omega) (by omega))]
    exact Heap.word_setWord (by omega)

end Blocks

/-- After `create_process` the three blocks are live, and the context has the address of the stack
block as stack pointer. -/
theorem createProcess_spec (ho : c.Owned nodes e) (hroom : e + 16644 ≤ 2^64)
    (hname : name.length < 32)
    (hr : createProcess c.heap fuel name entry_point arg = some r) :
    ∃ nodes' e', Client.Owned ⟨r.heap, (r.stack, 1024 * 16) :: (r.context, 176) ::
        (r.process, 48) :: c.live⟩ nodes' e' ∧
      r.heap.word (addw r.process 40) = r.context ∧
      r.heap.word (addw r.context 160) = r.stack := by
  simp only [createProcess, allocStack, Option.bind_eq_bind, Option.bind_eq_some_iff] at hr
  obtain ⟨r₁, h₁, r₂, h₂, r₃, h₃, hr⟩ := hr
  -- The `process_t` and the context.
  obtain ⟨nodes₁, e₁, hnew₁⟩ :=
    ho.malloc h₁ (Or.inr (show e + 9 + 48 + 9 ≤ 2^64 by omega))
  have he₁ : e₁ ≤ e + 9 + 48 := hnew₁.end_le
  obtain ⟨nodes₂, e₂, hnew₂⟩ :=
    hnew₁.owned.malloc h₂ (Or.inr (show e₁ + 9 + 176 + 9 ≤ 2^64 by omega))
  have he₂ : e₂ ≤ e₁ + 9 + 176 := hnew₂.end_le
  have hapart := hnew₂.owned.apart_head List.mem_cons_self
  have hq : r₂.ptr + 176 ≤ e₂ := hnew₂.owned.block_end List.mem_cons_self
  have hp : r₁.ptr + 48 ≤ e₂ :=
    hnew₂.owned.block_end (List.mem_cons_of_mem _ List.mem_cons_self)
  rw [Heap.word_setWord (by omega)] at h₃ hr
  have hready := initContext_spec entry_point arg hnew₂.owned
  -- The stack, and what is stored after it.
  obtain ⟨nodes₃, e₃, hnew₃⟩ :=
    hready.1.malloc h₃ (Or.inr (show e₂ + 9 + 1024 * 16 + 9 ≤ 2^64 by omega))
  by_cases hnull : r₃.ptr = 0
  · rw [if_pos hnull] at hr
    cases hr
  · rw [if_neg hnull] at hr
    obtain rfl := Option.some.inj hr
    have hcontext : r₃.heap.word (addw r₁.ptr 40) = r₂.ptr := by
      refine Eq.trans (Heap.word_congr
        (fun x hlo hhi => hnew₃.contents (r₁.ptr, 48) (by simp) x ?_)) hready.2
      rw [addw_of_lt (by omega)] at hlo hhi
      exact ⟨by dsimp only; omega, by dsimp only; omega⟩
    obtain ⟨h', rfl, ho', hword, hstack⟩ := setStack_spec hnew₃.owned hapart hname hcontext
    exact ⟨nodes₃, e₃, ho', hword, hstack⟩

/-! ## The run of a process -/

/-- The byte at an address that fits. -/
theorem startProcess_mem {p : ℕ} (hx : x < 2^64) :
    (startProcess h p).mem (BitVec.ofNat 64 x) = h.mem x := by
  show h.mem (BitVec.ofNat 64 x).toNat = h.mem x
  rw [BitVec.toNat_ofNat, Nat.mod_eq_of_lt hx]

/-- Without a push the process stays on its block. -/
theorem runsOnBlock_of_no_push (ho : Client.Owned ⟨r.heap, (r.stack, 1024 * 16) ::
      (r.context, 176) :: (r.process, 48) :: c.live⟩ nodes e)
    (hops : ∀ v, WordStack.Op.push v ∉ ops) : RunsOnBlock r c.live ops := by
  have hroom := ho.room
  obtain ⟨hstored, hmem⟩ := WordStack.execAll_of_no_push (s := startProcess r.heap r.process) hops
  constructor
  · intro a ha
    rw [hstored] at ha
    cases ha
  · intro a ha x hlo hhi
    obtain ⟨nd, hnd, rfl⟩ := Client.mem_of_onChain ho.chain ha
    have hbounds := ho.chain.bounds hnd
    rw [hmem, startProcess_mem (by omega)]
  · intro b hb x hx
    have hlive : b ∈ (r.stack, 1024 * 16) :: (r.context, 176) :: (r.process, 48) :: c.live := by
      simp only [List.mem_cons] at hb ⊢
      tauto
    have hend := ho.block_end hlive
    unfold Client.InBlock at hx
    rw [hmem, startProcess_mem (by omega)]

/-- Every word that it pushes is below its block. -/
theorem not_runsOnBlock_of_push (hstack : r.stack < 2^64)
    (hsp : (startProcess r.heap r.process).sp = BitVec.ofNat 64 r.stack)
    (hdepth : WordStack.InDepth (1024 * 16) 0 ops) {v : BitVec 64}
    (hops : WordStack.Op.push v ∈ ops) (live : List (ℕ × ℕ)) : ¬ RunsOnBlock r live ops := by
  intro hruns
  obtain ⟨a, ha⟩ := List.exists_mem_of_ne_nil _
    (WordStack.stored_ne_nil (s := startProcess r.heap r.process) hops)
  obtain ⟨k, hk, hlimit, rfl⟩ := WordStack.stored_below hdepth
    (hsp.trans (BitVec.sub_zero _).symm) ha
  -- Its first byte.
  have hzero : ∀ a : BitVec 64, a + BitVec.ofNat 64 0 = a := fun a => BitVec.add_zero a
  have hbyte := hruns.stored _ ha 0 (by omega)
  rw [hzero] at hbyte
  have htop : (BitVec.ofNat 64 r.stack).toNat = r.stack := by
    rw [BitVec.toNat_ofNat, Nat.mod_eq_of_lt hstack]
  refine WordStack.not_mem_block (BitVec.ofNat 64 r.stack) (by omega : 0 < k)
    (by omega : k + 1024 * 16 ≤ 2^64) ?_
  rw [htop]
  exact hbyte

/-- A process that `create_process` made on a heap with room for it, for pushes and pops between
none and 16 KiB: it runs on its block if and only if it pushes nothing. -/
theorem runsOnBlock_iff (ho : c.Owned nodes e) (hroom : e + 16644 ≤ 2^64)
    (hname : name.length < 32)
    (hr : createProcess c.heap fuel name entry_point arg = some r)
    (hdepth : WordStack.InDepth (1024 * 16) 0 ops) :
    RunsOnBlock r c.live ops ↔ ∀ v, WordStack.Op.push v ∉ ops := by
  obtain ⟨nodes', e', ho', hcontext, hstack⟩ := createProcess_spec ho hroom hname hr
  have hroom' := ho'.room
  have hend := ho'.block_end List.mem_cons_self
  have hsp : (startProcess r.heap r.process).sp = BitVec.ofNat 64 r.stack := by
    show BitVec.ofNat 64 (r.heap.word (addw (r.heap.word (addw r.process 40)) 160)) = _
    rw [hcontext, hstack]
  constructor
  · intro hruns v hv
    exact not_runsOnBlock_of_push (by omega) hsp hdepth hv c.live hruns
  · exact runsOnBlock_of_no_push ho'

/-- The first process on a new heap, its stack pointer, and the status of its block before and after
it pushes a word. -/
theorem first_created : ∃ r, createProcess (initKheap 0x180151010) 4 [65] 0x1000 0 = some r ∧
    r.stack = 0x18015119B ∧ (startProcess r.heap r.process).sp = 0x18015119B ∧
    r.heap.mem 0x18015119A = HEAP_ALLOCATION_USED ∧
    ((startProcess r.heap r.process).execAll [.push 0]).mem 0x18015119A =
      HEAP_ALLOCATION_FREE := by
  have hfirst : (createProcess (initKheap 0x180151010) 4 [65] 0x1000 0).map (fun r =>
      (r.stack, (startProcess r.heap r.process).sp, r.heap.mem 0x18015119A,
        ((startProcess r.heap r.process).execAll [.push 0]).mem 0x18015119A)) =
      some (0x18015119B, 0x18015119B, HEAP_ALLOCATION_USED, HEAP_ALLOCATION_FREE) := by
    decide +kernel
  obtain ⟨r, hr, hvalues⟩ := Option.map_eq_some_iff.mp hfirst
  simp only [Prod.mk.injEq] at hvalues
  exact ⟨r, hr, hvalues⟩

theorem runsOnBlock_iff_first : ∃ r,
    createProcess (initKheap 0x180151010) 4 [65] 0x1000 0 = some r ∧
    (RunsOnBlock r [] [.push 0] ↔ ∀ v, WordStack.Op.push v ∉ [WordStack.Op.push 0]) := by
  obtain ⟨r, hr, -⟩ := first_created
  have ho := Client.owned_init (by norm_num : 0x180151010 + 2^22 ≤ 2^64)
  exact ⟨r, hr, runsOnBlock_iff ho (by norm_num) (by decide) hr ⟨by decide, trivial⟩⟩

/-- It pushes a word, and its block is FREE. -/
theorem not_always_on_block : ∃ r,
    createProcess (initKheap 0x180151010) 4 [65] 0x1000 0 = some r ∧
    WordStack.InDepth (1024 * 16) 0 [.push 0] ∧ ¬ RunsOnBlock r [] [.push 0] ∧
    r.heap.mem (r.stack - 9 + 8) = HEAP_ALLOCATION_USED ∧
    ((startProcess r.heap r.process).execAll [.push 0]).mem (BitVec.ofNat 64 (r.stack - 9 + 8)) =
      HEAP_ALLOCATION_FREE := by
  obtain ⟨r, hr, hstack, hsp, hbefore, hafter⟩ := first_created
  have hdepth : WordStack.InDepth (1024 * 16) 0 [.push 0] := ⟨by decide, trivial⟩
  have hnot : ¬ RunsOnBlock r [] [.push 0] :=
    not_runsOnBlock_of_push (by rw [hstack]; norm_num) (by rw [hstack]; exact hsp) hdepth
      List.mem_cons_self []
  refine ⟨r, hr, hdepth, hnot, ?_, ?_⟩
  · rw [hstack]
    exact hbefore
  · rw [hstack]
    exact hafter

end Potatos
