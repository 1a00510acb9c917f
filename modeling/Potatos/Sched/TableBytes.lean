import Mathlib.Data.BitVec
import Potatos.Mem.Kheap
import Potatos.Sched.Process

/-!
# The process table in memory

`schelude` on bytes: the globals of `src/scheluding/scheluder.c`, the array that `snapshots` points
to, and the `process_t` behind its pointers. A `process_t` has the status at offset 0, the name from
offset 4 on, and the context at offset 40.

Nothing keeps these objects apart from each other, or from other memory. Where they are apart
(`Table`), `schelude` does to the bytes what `Scheluder.schelude` does to the table that they are of
(`Table.Stored.schelude`), and it writes no other byte.
-/

namespace Potatos

open Lib

namespace Status

/-- The values of `status_t`. -/
def toNat : Status → ℕ
  | READY => 0
  | RUNNING => 1
  | DEAD => 2
  | unwritten value => value

def ofNat : ℕ → Status
  | 0 => READY
  | 1 => RUNNING
  | 2 => DEAD
  | value => unwritten value

end Status

/-- Where the linker put the globals. -/
structure Globals where
  snapshots : ℕ
  currentTask : ℕ
  numTasks : ℕ

/-- The `int` at an address. -/
def loadInt (mem : ByteMemory) (a : ℕ) : BitVec 32 := BitVec.ofNat 32 (load 4 mem a)

namespace Globals

variable (g : Globals) (mem : ByteMemory)

/-- `snapshots[i]`. -/
def entry (i : BitVec 32) : ℕ :=
  load 8 mem (addw (load 8 mem g.snapshots) (8 * (i.signExtend 64).toNat))

/-- `snapshots[currentTask]`. -/
def current : ℕ := g.entry mem (loadInt mem g.currentTask)

/-- `p->context = c`. -/
def setContext (p : ℕ) (c : BitVec 64) : ByteMemory := store 8 mem (addw p 40) c.toNat

/-- `p->process_status = v`. -/
def setStatus (p : ℕ) (v : Status) : ByteMemory := store 4 mem p v.toNat

/-- `currentTask++`. -/
def nextTask : ByteMemory :=
  store 4 mem g.currentTask (loadInt mem g.currentTask + 1).toNat

/-- `currentTask %= numTasks`. The division of `int`s faults without tasks, and where the quotient
is no `int`. -/
def wrapTask : Option ByteMemory :=
  let currentTask := loadInt mem g.currentTask
  let numTasks := loadInt mem g.numTasks
  if numTasks = 0 ∨ (currentTask = BitVec.intMin 32 ∧ numTasks = -1) then none
  else some (store 4 mem g.currentTask (currentTask.srem numTasks).toNat)

/-- `schelude`: the context that it returns, and the memory. What it prints is left out. -/
def schelude (cur_status : BitVec 64) : Option (BitVec 64 × ByteMemory) := do
  let mem := setContext mem (g.current mem) cur_status
  let mem := setStatus mem (g.current mem) .READY
  let mem ← g.wrapTask (g.nextTask mem)
  let mem := setStatus mem (g.current mem) .RUNNING
  some (BitVec.ofNat 64 (load 8 mem (addw (g.current mem) 40)), mem)

end Globals

/-! ## Where the table is -/

/-- The objects of the table. -/
inductive TableObject where
  | snapshots
  | currentTask
  | numTasks
  | array
  | process (i : ℕ)
  deriving DecidableEq

namespace TableObject

/-- The objects for `n` tasks. -/
def Of (n : ℕ) : TableObject → Prop
  | process i => i < n
  | _ => True

/-- The bytes that `n` tasks need of it. -/
def size (n : ℕ) : TableObject → ℕ
  | snapshots => 8
  | currentTask => 4
  | numTasks => 4
  | array => 8 * n
  | process _ => 48

end TableObject

/-- Where the objects of a table for `n` tasks are. They do not overlap. -/
structure Table (n : ℕ) where
  address : TableObject → ℕ
  apart : ∀ o o', o.Of n → o'.Of n → o ≠ o' →
    address o + o.size n ≤ address o' ∨ address o' + o'.size n ≤ address o
  address_lt : ∀ o, o.Of n → address o + o.size n ≤ 2^64
  few : n < 2^31

namespace Table

variable {n : ℕ} (T : Table n)

def globals : Globals := ⟨T.address .snapshots, T.address .currentTask, T.address .numTasks⟩

/-- The bytes of the table. -/
def Byte (x : ℕ) : Prop := ∃ o : TableObject, o.Of n ∧ T.address o ≤ x ∧ x < T.address o + o.size n

/-- The pointers are to the objects, and there are `n` tasks. -/
structure Stored (mem : ByteMemory) : Prop where
  array : load 8 mem (T.address .snapshots) = T.address .array
  process : ∀ i < n, load 8 mem (T.address .array + 8 * i) = T.address (.process i)
  numTasks : load 4 mem (T.address .numTasks) = n

/-- The table that the bytes are of. -/
def table (mem : ByteMemory) : Scheluder (BitVec 64) where
  snapshots i := if i < n then load 8 mem (T.address .array + 8 * i) else 0
  process p :=
    if ∃ i < n, p = T.address (.process i) then
      ⟨Status.ofNat (load 4 mem p), BitVec.ofNat 64 (load 8 mem (p + 40))⟩
    else ⟨.READY, 0⟩
  currentTask := load 4 mem (T.address .currentTask)
  numTasks := load 4 mem (T.address .numTasks)

variable {T} {mem mem' : ByteMemory} {o o' : TableObject} {a b i j k v : ℕ}
  {c : BitVec 64} {w : Status} {t : Scheluder (BitVec 64)}

/-! ## Reading the table -/

/-- Bytes in an object. -/
structure In (T : Table n) (o : TableObject) (a k : ℕ) : Prop where
  object : o.Of n
  first : T.address o ≤ a
  last : a + k ≤ T.address o + o.size n

theorem in_snapshots : T.In .snapshots (T.address .snapshots) 8 := ⟨trivial, le_refl _, le_refl _⟩

theorem in_currentTask : T.In .currentTask (T.address .currentTask) 4 :=
  ⟨trivial, le_refl _, le_refl _⟩

theorem in_numTasks : T.In .numTasks (T.address .numTasks) 4 := ⟨trivial, le_refl _, le_refl _⟩

theorem in_array (hi : i < n) : T.In .array (T.address .array + 8 * i) 8 := by
  refine ⟨trivial, Nat.le_add_right .., ?_⟩
  show T.address .array + 8 * i + 8 ≤ T.address .array + 8 * n
  omega

theorem in_status (hi : i < n) : T.In (.process i) (T.address (.process i)) 4 := by
  refine ⟨hi, le_refl _, ?_⟩
  show _ ≤ T.address (.process i) + 48
  omega

theorem in_context (hi : i < n) : T.In (.process i) (T.address (.process i) + 40) 8 :=
  ⟨hi, Nat.le_add_right .., le_refl _⟩

/-- A store to one object leaves the others. -/
theorem In.load_store (ha : T.In o a j) (hb : T.In o' b k) (hne : o ≠ o') :
    load k (store j mem a v) b = load k mem b := by
  have happart := T.apart o o' ha.object hb.object hne
  have h1 := ha.first
  have h2 := ha.last
  have h3 := hb.first
  have h4 := hb.last
  exact load_store_of_apart (by omega)

/-- It writes no byte outside the table. -/
theorem In.store_out (ha : T.In o a j) {x : ℕ} (hx : ¬ T.Byte x) : store j mem a v x = mem x := by
  have h1 := ha.first
  have h2 := ha.last
  refine store_of_out ?_
  by_contra hin
  exact hx ⟨o, ha.object, by omega, by omega⟩

theorem In.load_congr (ha : T.In o a j) (hsame : ∀ x, T.Byte x → mem' x = mem x) :
    load j mem' a = load j mem a := by
  refine Lib.load_congr (fun x h1 h2 => hsame x ⟨o, ha.object, ?_, ?_⟩)
  · exact ha.first.trans h1
  · exact h2.trans_le ha.last

theorem Stored.congr (h : T.Stored mem) (hsame : ∀ x, T.Byte x → mem' x = mem x) :
    T.Stored mem' where
  array := (in_snapshots.load_congr hsame).trans h.array
  process i hi := ((in_array hi).load_congr hsame).trans (h.process i hi)
  numTasks := (in_numTasks.load_congr hsame).trans h.numTasks

theorem snapshots_of_lt (hi : i < n) :
    (T.table mem).snapshots i = load 8 mem (T.address .array + 8 * i) := if_pos hi

theorem process_of_lt (hi : i < n) : (T.table mem).process (T.address (.process i)) =
    ⟨Status.ofNat (load 4 mem (T.address (.process i))),
      BitVec.ofNat 64 (load 8 mem (T.address (.process i) + 40))⟩ := if_pos ⟨i, hi, rfl⟩

/-- What the two tables have in common is in the objects that hold the same. -/
theorem snapshots_congr (hsame : ∀ i < n,
    load 8 mem' (T.address .array + 8 * i) = load 8 mem (T.address .array + 8 * i)) :
    (T.table mem').snapshots = (T.table mem).snapshots := by
  funext i
  by_cases hi : i < n
  · rw [snapshots_of_lt hi, snapshots_of_lt hi, hsame i hi]
  · exact (if_neg hi).trans (if_neg hi).symm

theorem process_congr {p : ℕ} (hsame : ∀ i < n, p = T.address (.process i) →
    load 4 mem' p = load 4 mem p ∧ load 8 mem' (p + 40) = load 8 mem (p + 40)) :
    (T.table mem').process p = (T.table mem).process p := by
  by_cases hp : ∃ i < n, p = T.address (.process i)
  · obtain ⟨i, hi, rfl⟩ := hp
    obtain ⟨hstatus, hcontext⟩ := hsame i hi rfl
    rw [process_of_lt hi, process_of_lt hi, hstatus, hcontext]
  · exact (if_neg hp).trans (if_neg hp).symm

/-- The table is its bytes. -/
theorem table_congr (hsame : ∀ x, T.Byte x → mem' x = mem x) : T.table mem' = T.table mem := by
  refine Scheluder.ext ?_ (funext fun p => ?_) ?_ ?_
  · exact snapshots_congr (fun i hi => (in_array hi).load_congr hsame)
  · refine process_congr (fun i hi hp => ?_)
    subst hp
    exact ⟨(in_status hi).load_congr hsame, (in_context hi).load_congr hsame⟩
  · exact in_currentTask.load_congr hsame
  · exact in_numTasks.load_congr hsame

/-- The pointers of different tasks are different. -/
theorem address_process_inj (hi : i < n) (hj : j < n)
    (h : T.address (.process i) = T.address (.process j)) : i = j := by
  by_contra hne
  have happart := T.apart (.process i) (.process j) hi hj (fun h => hne (TableObject.process.inj h))
  have hsize : ∀ k, TableObject.size n (.process k) = 48 := fun _ => rfl
  simp only [hsize] at happart
  omega

/-- A number of tasks, as an `int`. -/
theorem loadInt_of_lt (hv : load 4 mem a = v) (hlt : v < 2^31) :
    (loadInt mem a).toNat = v ∧ (loadInt mem a).msb = false := by
  unfold loadInt
  rw [hv]
  have hnat : (BitVec.ofNat 32 v).toNat = v := by
    rw [BitVec.toNat_ofNat]
    exact Nat.mod_eq_of_lt (by omega)
  refine ⟨hnat, ?_⟩
  rw [BitVec.msb_eq_false_iff_two_mul_lt, hnat]
  omega

/-- `snapshots[currentTask]` is the `process_t` of the current task. -/
theorem Stored.current (h : T.Stored mem) (hcur : (T.table mem).currentTask < n) :
    T.globals.current mem = T.address (.process (T.table mem).currentTask) ∧
      (T.table mem).current = T.address (.process (T.table mem).currentTask) := by
  have hfew := T.few
  have hend := T.address_lt .array trivial
  have hsize : TableObject.size n .array = 8 * n := rfl
  refine ⟨?_, (snapshots_of_lt hcur).trans (h.process _ hcur)⟩
  obtain ⟨hnat, hmsb⟩ := loadInt_of_lt (a := T.address .currentTask) rfl (hcur.trans hfew)
  have hindex : ((loadInt mem (T.address .currentTask)).signExtend 64).toNat =
      (T.table mem).currentTask := by
    rw [BitVec.signExtend_eq_setWidth_of_msb_false hmsb, BitVec.toNat_setWidth, hnat]
    exact Nat.mod_eq_of_lt (by omega)
  show load 8 mem (addw (load 8 mem (T.address .snapshots))
    (8 * ((loadInt mem (T.address .currentTask)).signExtend 64).toNat)) = _
  rw [hindex, h.array, addw_of_lt (by omega), h.process _ hcur]

/-- `snapshots[currentTask]->context`. -/
theorem Stored.context (h : T.Stored mem) (hcur : (T.table mem).currentTask < n) :
    BitVec.ofNat 64 (load 8 mem (addw (T.globals.current mem) 40)) =
      (T.table mem).context (T.table mem).currentTask := by
  obtain ⟨hbytes, htable⟩ := h.current hcur
  have hlt := T.address_lt (.process (T.table mem).currentTask) hcur
  have hsize : TableObject.size n (.process (T.table mem).currentTask) = 48 := rfl
  rw [hbytes, addw_of_lt (by omega)]
  show _ = ((T.table mem).process (T.table mem).current).context
  rw [htable, process_of_lt hcur]

/-! ## Writing to it -/

/-- The statement makes `mem'` of `mem`, whose table is `t` then. The pointers are left, and so is
all other memory. -/
structure Writes (T : Table n) (mem mem' : ByteMemory) (t : Scheluder (BitVec 64)) : Prop where
  table : T.table mem' = t
  stored : T.Stored mem'
  frame : ∀ x, ¬ T.Byte x → mem' x = mem x

/-- A store to an object that is not a pointer, nor `numTasks`. -/
theorem Stored.written (h : T.Stored mem) (ha : T.In o a k)
    (ho : o ≠ .snapshots ∧ o ≠ .array ∧ o ≠ .numTasks) (htable : T.table (store k mem a v) = t) :
    T.Writes mem (store k mem a v) t where
  table := htable
  stored := ⟨(ha.load_store in_snapshots ho.1).trans h.array,
    fun i hi => (ha.load_store (in_array hi) ho.2.1).trans (h.process i hi),
    (ha.load_store in_numTasks ho.2.2).trans h.numTasks⟩
  frame _ hx := ha.store_out hx

/-- The table after a store to a `process_t`. -/
theorem table_store_process (ha : T.In (.process i) a k) :
    T.table (store k mem a v) = { T.table mem with
      process := Function.update (T.table mem).process (T.address (.process i))
        ⟨Status.ofNat (load 4 (store k mem a v) (T.address (.process i))),
          BitVec.ofNat 64 (load 8 (store k mem a v) (T.address (.process i) + 40))⟩ } := by
  refine Scheluder.ext ?_ (funext fun p => ?_) ?_ ?_
  · exact snapshots_congr (fun j hj => ha.load_store (in_array hj) TableObject.noConfusion)
  · dsimp only
    by_cases hp : p = T.address (.process i)
    · rw [hp, process_of_lt ha.object, Function.update_self]
    · rw [Function.update_of_ne hp]
      refine process_congr (fun j hj hpj => ?_)
      have hne : TableObject.process i ≠ .process j := by
        rintro h
        exact hp (hpj.trans (congrArg T.address h).symm)
      subst hpj
      exact ⟨ha.load_store (in_status hj) hne, ha.load_store (in_context hj) hne⟩
  · exact ha.load_store in_currentTask TableObject.noConfusion
  · exact ha.load_store in_numTasks TableObject.noConfusion

/-- `snapshots[currentTask]->context = c`. -/
theorem Stored.setContext (h : T.Stored mem) (hcur : (T.table mem).currentTask < n) :
    T.Writes mem (Globals.setContext mem (T.globals.current mem) c)
      ((T.table mem).setContext (T.table mem).current c) := by
  obtain ⟨hbytes, htable⟩ := h.current hcur
  have hlt := T.address_lt (.process (T.table mem).currentTask) hcur
  have hsize : TableObject.size n (.process (T.table mem).currentTask) = 48 := rfl
  have hc : BitVec.ofNat 64 (c.toNat % 256^8) = c := by
    have hlow : c.toNat % 256^8 = c.toNat := Nat.mod_eq_of_lt c.isLt
    rw [hlow, BitVec.ofNat_toNat, BitVec.setWidth_eq]
  unfold Globals.setContext Scheluder.setContext
  rw [hbytes, htable, addw_of_lt (by omega)]
  refine h.written (in_context hcur)
    ⟨TableObject.noConfusion, TableObject.noConfusion, TableObject.noConfusion⟩ ?_
  rw [table_store_process (in_context hcur), process_of_lt hcur, load_store_of_apart (by omega),
    load_store_self, hc]

/-- `snapshots[currentTask]->process_status = w`, for the two values that `schelude` stores. -/
theorem Stored.setStatus (h : T.Stored mem) (hcur : (T.table mem).currentTask < n)
    (hw : w = .READY ∨ w = .RUNNING) :
    T.Writes mem (Globals.setStatus mem (T.globals.current mem) w)
      ((T.table mem).setStatus (T.table mem).current w) := by
  obtain ⟨hbytes, htable⟩ := h.current hcur
  have hvalue : Status.ofNat (w.toNat % 256^4) = w := by
    rcases hw with rfl | rfl
    · rfl
    · rfl
  unfold Globals.setStatus Scheluder.setStatus
  rw [hbytes, htable]
  refine h.written (in_status hcur)
    ⟨TableObject.noConfusion, TableObject.noConfusion, TableObject.noConfusion⟩ ?_
  rw [table_store_process (in_status hcur), process_of_lt hcur, load_store_self, hvalue,
    load_store_of_apart (by omega)]

/-- `currentTask = v`. -/
theorem Stored.setCurrentTask (h : T.Stored mem) (hv : v < 2^31) :
    T.Writes mem (store 4 mem (T.address .currentTask) v)
      { T.table mem with currentTask := v } := by
  refine h.written in_currentTask (by decide) (Scheluder.ext ?_ (funext fun p => ?_) ?_ ?_)
  · exact snapshots_congr
      (fun j hj => in_currentTask.load_store (in_array hj) TableObject.noConfusion)
  · refine process_congr (fun j hj hp => ?_)
    subst hp
    exact ⟨in_currentTask.load_store (in_status hj) TableObject.noConfusion,
      in_currentTask.load_store (in_context hj) TableObject.noConfusion⟩
  · exact load_store_self.trans (Nat.mod_eq_of_lt (by omega))
  · exact in_currentTask.load_store in_numTasks TableObject.noConfusion

/-! ## `schelude` -/

/-- `currentTask++` has no overflow. -/
theorem Stored.nextTask (h : T.Stored mem) (hcur : (T.table mem).currentTask < n) :
    T.Writes mem (T.globals.nextTask mem) (T.table mem).nextTask := by
  have hfew := T.few
  have hload : load 4 mem (T.address .currentTask) < n := hcur
  obtain ⟨hnat, -⟩ := loadInt_of_lt (a := T.address .currentTask) rfl (hload.trans hfew)
  have hsum : (loadInt mem (T.address .currentTask) + 1).toNat =
      load 4 mem (T.address .currentTask) + 1 := by
    have h1 : (1 : BitVec 32).toNat = 1 := rfl
    rw [BitVec.toNat_add, hnat, h1]
    exact Nat.mod_eq_of_lt (by omega)
  show T.Writes mem (store 4 mem (T.address .currentTask)
    (loadInt mem (T.address .currentTask) + 1).toNat) _
  rw [hsum]
  exact h.setCurrentTask (by omega)

/-- The remainder of `int`s that are not negative. -/
theorem Stored.wrapTask (h : T.Stored mem) (hcur : (T.table mem).currentTask ≤ n) (hn : 0 < n) :
    ∃ mem', T.globals.wrapTask mem = some mem' ∧
      T.Writes mem mem' { T.table mem with currentTask := (T.table mem).currentTask % n } := by
  have hfew := T.few
  have hload : load 4 mem (T.address .currentTask) ≤ n := hcur
  obtain ⟨hnat, hmsb⟩ :=
    loadInt_of_lt (a := T.address .currentTask) rfl (lt_of_le_of_lt hload hfew)
  obtain ⟨hnat', hmsb'⟩ := loadInt_of_lt h.numTasks hfew
  have hrem : ((loadInt mem (T.address .currentTask)).srem
      (loadInt mem (T.address .numTasks))).toNat = (T.table mem).currentTask % n := by
    rw [BitVec.srem_eq, hmsb, hmsb']
    show (_ % _ : BitVec 32).toNat = _
    rw [BitVec.toNat_umod, hnat, hnat']
    rfl
  have hzero : loadInt mem (T.address .numTasks) ≠ 0 := by
    intro h0
    rw [h0] at hnat'
    exact hn.ne hnat'
  have hmin : loadInt mem (T.address .currentTask) ≠ BitVec.intMin 32 := by
    intro hmin
    rw [hmin] at hmsb
    exact absurd hmsb (by decide)
  have hmod : (T.table mem).currentTask % n < n := Nat.mod_lt _ hn
  refine ⟨_, ?_, h.setCurrentTask (by omega)⟩
  unfold Globals.wrapTask
  rw [if_neg (fun h => h.elim hzero (fun h => hmin h.1))]
  exact congrArg (fun v => some (store 4 mem (T.address .currentTask) v)) hrem

/-- `schelude` does to the bytes what it does to the table, and writes no other byte. -/
theorem Stored.schelude (h : T.Stored mem) (hcur : (T.table mem).currentTask < n)
    (c : BitVec 64) :
    ∃ context mem', T.globals.schelude mem c = some (context, mem') ∧
      (T.table mem).schelude c = some (context, T.table mem') ∧ T.Stored mem' ∧
      ∀ x, ¬ T.Byte x → mem' x = mem x := by
  have hn : 0 < n := by omega
  unfold Globals.schelude Scheluder.schelude
  dsimp only
  -- The context and the status of the current task.
  have hcontext := h.setContext (c := c) hcur
  rw [← hcontext.table]
  generalize Globals.setContext mem (T.globals.current mem) c = m₁ at hcontext ⊢
  have hcur₁ : (T.table m₁).currentTask < n := by
    rw [hcontext.table]
    exact hcur
  have hready := hcontext.stored.setStatus hcur₁ (Or.inl rfl)
  rw [← hready.table]
  generalize Globals.setStatus m₁ (T.globals.current m₁) .READY = m₂ at hready ⊢
  have hcur₂ : (T.table m₂).currentTask < n := by
    rw [hready.table]
    exact hcur₁
  -- The turn goes around.
  have hnext := hready.stored.nextTask hcur₂
  rw [← hnext.table]
  generalize T.globals.nextTask m₂ = m₃ at hnext ⊢
  have hcur₃ : (T.table m₃).currentTask ≤ n := by
    rw [hnext.table]
    exact hcur₂
  obtain ⟨m₄, hm₄, hwrap⟩ := hnext.stored.wrapTask hcur₃ hn
  have htotal : (T.table m₃).numTasks = n := hnext.stored.numTasks
  have hmod : (T.table m₃).currentTask % (T.table m₃).numTasks = (T.table m₃).currentTask % n :=
    congrArg _ htotal
  have hwrap' : (T.table m₃).wrapTask = some (T.table m₄) := by
    refine Scheluder.wrapTask_eq_some.mpr ⟨htotal.trans_ne hn.ne', ?_⟩
    rw [hmod]
    exact hwrap.table
  simp only [hm₄, hwrap', Option.bind_eq_bind, Option.bind_some]
  have hcur₄ : (T.table m₄).currentTask < n := by
    rw [hwrap.table]
    exact Nat.mod_lt _ hn
  have hrunning := hwrap.stored.setStatus hcur₄ (Or.inr rfl)
  rw [← hrunning.table]
  generalize Globals.setStatus m₄ (T.globals.current m₄) .RUNNING = m₅ at hrunning ⊢
  have hcur₅ : (T.table m₅).currentTask < n := by
    rw [hrunning.table]
    exact hcur₄
  refine ⟨_, m₅, rfl, ?_, hrunning.stored, fun x hx => ?_⟩
  · rw [hrunning.stored.context hcur₅]
  · calc m₅ x = m₄ x := hrunning.frame x hx
      _ = m₃ x := hwrap.frame x hx
      _ = m₂ x := hnext.frame x hx
      _ = m₁ x := hready.frame x hx
      _ = mem x := hcontext.frame x hx

end Table

end Potatos
