import Mathlib.Data.Nat.ModEq
import Mathlib.Data.Set.Function
import Mathlib.Order.Interval.Set.Defs
import Potatos.Sched.Process

/-!
# Round robin

The ticks of the timer one after the other, each handled before the next one comes. `schelude`
goes around the table, so that a task comes back after `numTasks` ticks, with the context that was
stored when it was last switched out. In the first round the table still has the contexts that
`create_process` made, and the statuses that were there before.

The contexts that the ticks bring are numbered from 1 on.
-/

namespace Potatos.Scheluder

variable {κ : Type} (s : Scheluder κ)

def TIMER_INTERRUPT : ℕ := 0x20

/-- `interrupt_dispatch`: the context that it returns, and the table. For an exception it halts. The
keyboard and the acknowledgement have nothing to do with the table. -/
def interrupt_dispatch (interrupt_number : ℕ) (context : κ) : Option (κ × Scheluder κ) :=
  if 0x20 ≤ interrupt_number then
    if interrupt_number = TIMER_INTERRUPT then s.schelude context else some (context, s)
  else none

/-- A tick of the timer. -/
def tick (context : κ) : Option (κ × Scheluder κ) := s.interrupt_dispatch TIMER_INTERRUPT context

/-- The table after the first `k` ticks. -/
def afterTicks (c : ℕ → κ) : ℕ → Option (Scheluder κ)
  | 0 => some s
  | k + 1 => do
    let s ← afterTicks c k
    let (_, s) ← s.tick (c (k + 1))
    some s

/-- `snapshots[i]->process_status`. -/
def status (i : ℕ) : Status := (s.process (s.snapshots i)).process_status

/-- The tasks have a `process_t` each. -/
def Distinct : Prop := Set.InjOn s.snapshots (Set.Iio s.numTasks)

variable {s} {s' : Scheluder κ} {c : ℕ → κ} {context : κ} {i k p : ℕ} {v : Status}

/-! ## One tick -/

theorem status_setStatus :
    (s.setStatus p v).status i = if s.snapshots i = p then v else s.status i := by
  unfold status setStatus
  by_cases h : s.snapshots i = p
  · rw [if_pos h, h]
    simp only [Function.update_self]
  · rw [if_neg h]
    simp only [Function.update_of_ne h]

theorem status_setContext {x : κ} : (s.setContext p x).status i = s.status i := by
  unfold status setContext
  by_cases h : s.snapshots i = p
  · subst h
    simp only [Function.update_self]
  · simp only [Function.update_of_ne h]

theorem context_setContext {x : κ} :
    (s.setContext p x).context i = if s.snapshots i = p then x else s.context i := by
  split_ifs with h
  · exact context_setContext_self h
  · exact context_setContext_of_ne h

/-- What a tick does to the table. -/
structure Ticked (s : Scheluder κ) (context : κ) (s' : Scheluder κ) : Prop where
  snapshots : s'.snapshots = s.snapshots
  numTasks : s'.numTasks = s.numTasks
  currentTask : s'.currentTask = (s.currentTask + 1) % s.numTasks
  context : ∀ i < s.numTasks, s'.context i = if i = s.currentTask then context else s.context i
  status : ∀ i < s.numTasks, s'.status i =
    if i = s'.currentTask then .RUNNING else if i = s.currentTask then .READY else s.status i

/-- A tick stores the context that it brings for the current task, and returns the one of the
next. -/
theorem tick_spec (hd : s.Distinct) (hcur : s.currentTask < s.numTasks) :
    ∃ s', s.tick context = some (s'.context s'.currentTask, s') ∧ s.Ticked context s' := by
  have hn : s.numTasks ≠ 0 := by omega
  -- Two entries of the table are the same pointer only if they are of the same task.
  have hsame : ∀ i < s.numTasks, ∀ j < s.numTasks, s.snapshots i = s.snapshots j ↔ i = j :=
    fun i hi j hj => hd.eq_iff hi hj
  have hnext : (s.currentTask + 1) % s.numTasks < s.numTasks := Nat.mod_lt _ (by omega)
  let stored := (s.setContext s.current context).setStatus s.current .READY
  let next : Scheluder κ := { stored with currentTask := (s.currentTask + 1) % s.numTasks }
  have hwrap : stored.nextTask.wrapTask = some next := wrapTask_eq_some.mpr ⟨hn, rfl⟩
  have hcontext : ∀ i < s.numTasks,
      stored.context i = if i = s.currentTask then context else s.context i := by
    intro i hi
    calc stored.context i = (s.setContext s.current context).context i := context_setStatus
      _ = if s.snapshots i = s.current then context else s.context i := context_setContext
      _ = if i = s.currentTask then context else s.context i := by
          simp only [current, hsame i hi _ hcur]
  have hstatus : ∀ i < s.numTasks,
      stored.status i = if i = s.currentTask then .READY else s.status i := by
    intro i hi
    calc stored.status i
        = if s.snapshots i = s.current then .READY
          else (s.setContext s.current context).status i := status_setStatus
      _ = if i = s.currentTask then .READY else s.status i := by
          simp only [current, hsame i hi _ hcur, status_setContext]
  refine ⟨next.setStatus next.current .RUNNING, ?_, rfl, rfl, rfl, ?context, ?status⟩
  · unfold tick interrupt_dispatch
    rw [if_pos (by decide), if_pos rfl]
    exact Option.bind_eq_some_iff.mpr ⟨next, hwrap, rfl⟩
  case context =>
    intro i hi
    rw [context_setStatus]
    exact hcontext i hi
  case status =>
    intro i hi
    calc (next.setStatus next.current .RUNNING).status i
        = if s.snapshots i = s.snapshots next.currentTask then .RUNNING else stored.status i :=
          status_setStatus
      _ = _ := by
          simp only [hsame i hi _ hnext, hstatus i hi, next]
          rfl

/-! ## All ticks -/

/-- The table after `k` ticks: what the last round of them stored, and what was there before in the
first round. -/
structure After (s : Scheluder κ) (c : ℕ → κ) (k : ℕ) (s' : Scheluder κ) : Prop where
  snapshots : s'.snapshots = s.snapshots
  numTasks : s'.numTasks = s.numTasks
  currentTask : s'.currentTask = k % s.numTasks
  stored : ∀ j < k, k ≤ j + s.numTasks → s'.context (j % s.numTasks) = c (j + 1)
  before : ∀ i < s.numTasks, k ≤ i → s'.context i = s.context i
  running : 0 < k → s'.status (k % s.numTasks) = .RUNNING
  ready : ∀ i < s.numTasks, i < k → i ≠ k % s.numTasks → s'.status i = .READY

theorem After.refl (hcur : s.currentTask = 0) : s.After c 0 s :=
  ⟨rfl, rfl, by rw [hcur, Nat.zero_mod], by omega, fun _ _ _ => rfl, by omega, by omega⟩

/-- Two ticks less than a round apart are of different tasks. -/
theorem mod_ne_mod {j k n : ℕ} (hlt : j < k) (hk : k < j + n) : j % n ≠ k % n := by
  intro h
  have hdvd : n ∣ k - j := (Nat.modEq_iff_dvd' hlt.le).mp h
  have hle := Nat.le_of_dvd (by omega) hdvd
  omega

theorem After.tick (h : s.After c k s') (hd : s.Distinct) (hn : 0 < s.numTasks) :
    ∃ t, s'.tick (c (k + 1)) = some (t.context t.currentTask, t) ∧ s'.Ticked (c (k + 1)) t ∧
      s.After c (k + 1) t := by
  have hcur : s'.currentTask < s'.numTasks := by
    rw [h.currentTask, h.numTasks]
    exact Nat.mod_lt _ hn
  have hd' : s'.Distinct := by
    unfold Distinct
    rw [h.snapshots, h.numTasks]
    exact hd
  obtain ⟨t, ht, htick⟩ : ∃ t, s'.tick (c (k + 1)) = some (t.context t.currentTask, t) ∧
      s'.Ticked (c (k + 1)) t := tick_spec hd' hcur
  have hcontext := htick.context
  have hstatus := htick.status
  have hcurt : t.currentTask = (k + 1) % s.numTasks := by
    rw [htick.currentTask, h.currentTask, h.numTasks, Nat.mod_add_mod]
  simp only [h.numTasks, h.currentTask, hcurt] at hcontext hstatus
  refine ⟨t, ht, htick, htick.snapshots.trans h.snapshots, htick.numTasks.trans h.numTasks, hcurt,
    ?stored, ?before, ?running, ?ready⟩
  case stored =>
    intro j hj hround
    rw [hcontext _ (Nat.mod_lt _ hn)]
    -- The context of tick `k` has just been stored, and the others are as they were.
    obtain rfl | hlt : j = k ∨ j < k := by omega
    · rw [if_pos rfl]
    · rw [if_neg (mod_ne_mod hlt (by omega)), h.stored j hlt (by omega)]
  case before =>
    intro i hi hk
    rw [hcontext i hi, if_neg, h.before i hi (by omega)]
    rw [Nat.mod_eq_of_lt (by omega)]
    omega
  case running =>
    intro _
    rw [hstatus _ (Nat.mod_lt _ hn), if_pos rfl]
  case ready =>
    intro i hi hk hne
    rw [hstatus i hi, if_neg hne]
    split_ifs with hik
    · rfl
    · refine h.ready i hi ?_ hik
      -- The task of tick `k` has become ready now, and the ones before it earlier.
      obtain rfl | hlt : i = k ∨ i < k := by omega
      · exact absurd (Nat.mod_eq_of_lt hi).symm hik
      · exact hlt

/-- After any number of ticks. -/
theorem after_ticks (hd : s.Distinct) (hn : 0 < s.numTasks) (hcur : s.currentTask = 0) (k : ℕ) :
    ∃ t, s.afterTicks c k = some t ∧ s.After c k t := by
  induction k with
  | zero => exact ⟨s, rfl, .refl hcur⟩
  | succ k ih =>
    obtain ⟨s', hs', h⟩ := ih
    obtain ⟨t, ht, -, hafter⟩ := h.tick hd hn
    refine ⟨t, ?_, hafter⟩
    calc s.afterTicks c (k + 1)
        = (s.afterTicks c k).bind (fun s => (s.tick (c (k + 1))).bind (fun x => some x.2)) := rfl
      _ = (s'.tick (c (k + 1))).bind (fun x => some x.2) := by rw [hs', Option.bind_some]
      _ = some t := by rw [ht, Option.bind_some]

/-- Among `n` ticks in a row, each task has one. -/
theorem existsUnique_mod {n i : ℕ} (k : ℕ) (hi : i < n) :
    ∃! j, (k < j ∧ j ≤ k + n) ∧ j % n = i := by
  have hn : 0 < n := by omega
  -- The tick is the first one from `k + 1` on that is of the task.
  have hmod : (k + 1 + (i + (n - (k + 1) % n)) % n) % n = i := by
    have hlt := Nat.mod_lt (k + 1) hn
    calc (k + 1 + (i + (n - (k + 1) % n)) % n) % n
        = ((k + 1) % n + (i + (n - (k + 1) % n))) % n := by
          rw [Nat.add_mod_mod, Nat.mod_add_mod]
      _ = (i + n) % n := by
          congr 1
          omega
      _ = i := by rw [Nat.add_mod_right, Nat.mod_eq_of_lt hi]
  have hlt : (i + (n - (k + 1) % n)) % n < n := Nat.mod_lt _ hn
  refine ⟨k + 1 + (i + (n - (k + 1) % n)) % n, ⟨⟨by omega, by omega⟩, hmod⟩, ?_⟩
  rintro j ⟨⟨hkj, hjk⟩, hj⟩
  rcases Nat.lt_trichotomy j (k + 1 + (i + (n - (k + 1) % n)) % n) with h | h | h
  · exact absurd (hj.trans hmod.symm) (mod_ne_mod h (by omega))
  · exact h
  · exact absurd (hmod.trans hj.symm) (mod_ne_mod h (by omega))

/-- The task that tick `k` dispatches was last switched out `numTasks` ticks before. -/
structure LastSwitchedOut (n k j : ℕ) : Prop where
  pos : 0 < j
  le : j ≤ k
  task : (j - 1) % n = k % n
  none_since : ∀ l, j < l → l ≤ k → (l - 1) % n ≠ k % n

theorem lastSwitchedOut {n : ℕ} (hn : 0 < n) (hk : n ≤ k) : LastSwitchedOut n k (k - n + 1) where
  pos := by omega
  le := by omega
  task := by
    rw [Nat.add_sub_cancel, ← Nat.mod_eq_sub_mod hk]
  none_since l hl hlk := mod_ne_mod (by omega) (by omega)

/-- What tick `k` does, when the first one came with `currentTask = 0`. -/
structure RoundRobin (s : Scheluder κ) (c : ℕ → κ) (k : ℕ) (pre : Scheluder κ) (returned : κ)
    (post : Scheluder κ) : Prop where
  dispatch : pre.interrupt_dispatch TIMER_INTERRUPT (c k) = some (returned, post)
  snapshots : post.snapshots = s.snapshots
  numTasks : post.numTasks = s.numTasks
  stored : post.context ((k - 1) % s.numTasks) = c k
  others : ∀ i < s.numTasks, i ≠ (k - 1) % s.numTasks → post.context i = pre.context i
  currentTask : post.currentTask = k % s.numTasks
  first_round : k < s.numTasks → returned = s.context (k % s.numTasks)
  later : s.numTasks ≤ k → returned = c (k - s.numTasks + 1) ∧
    LastSwitchedOut s.numTasks k (k - s.numTasks + 1)
  status : max 1 (s.numTasks - 1) ≤ k → ∀ i < s.numTasks,
    post.status i = if i = post.currentTask then .RUNNING else .READY

theorem After.roundRobin (h : s.After c k s') (hd : s.Distinct) (hn : 0 < s.numTasks) :
    ∃ returned t, s.RoundRobin c (k + 1) s' returned t ∧ s.After c (k + 1) t := by
  obtain ⟨t, ht, htick, hafter⟩ := h.tick hd hn
  have hlt := Nat.mod_lt (k + 1) hn
  refine ⟨_, t, ⟨ht, hafter.snapshots, hafter.numTasks, ?stored, ?others, hafter.currentTask,
    ?first_round, ?later, ?status⟩, hafter⟩
  case stored =>
    exact hafter.stored k (by omega) (by omega)
  case others =>
    intro i hi hne
    rw [htick.context i (by rw [h.numTasks]; exact hi), h.currentTask]
    exact if_neg hne
  case first_round =>
    intro hk
    rw [hafter.currentTask]
    exact hafter.before _ hlt (Nat.mod_eq_of_lt hk).ge
  case later =>
    intro hk
    refine ⟨?_, lastSwitchedOut hn hk⟩
    have hmod : (k + 1) % s.numTasks = (k + 1 - s.numTasks) % s.numTasks := Nat.mod_eq_sub_mod hk
    rw [hafter.currentTask, hmod]
    exact hafter.stored (k + 1 - s.numTasks) (by omega) (by omega)
  case status =>
    intro hk i hi
    rw [hafter.currentTask]
    split_ifs with heq
    · rw [heq]
      exact hafter.running (by omega)
    · refine hafter.ready i hi ?_ heq
      -- Only the last tick of the first round leaves a task that had no tick, the one it
      -- dispatches.
      obtain hk' | hk' : k + 1 = i ∨ i < k + 1 := by omega
      · rw [hk', Nat.mod_eq_of_lt hi] at heq
        exact absurd rfl heq
      · exact hk'

/-- Tick `k` stores its context for task `(k - 1) % numTasks`, and returns the first context of task
`k % numTasks` in the first round, then the one stored a round before. Each task has one of any
`numTasks` ticks in a row. After the first round the statuses say which task runs. -/
theorem round_robin (hd : s.Distinct) (hn : 0 < s.numTasks) (hcur : s.currentTask = 0)
    (c : ℕ → κ) :
    ∃ (table : ℕ → Scheluder κ) (returned : ℕ → κ), table 0 = s ∧
      (∀ k, 1 ≤ k → s.RoundRobin c k (table (k - 1)) (returned k) (table k)) ∧
      ∀ k, ∀ i < s.numTasks, ∃! j, (k < j ∧ j ≤ k + s.numTasks) ∧ (table j).currentTask = i := by
  choose table htable hafter using after_ticks (c := c) hd hn hcur
  choose returned post hpost hpostAfter using fun k => (hafter k).roundRobin hd hn
  have hsucc : ∀ k, post k = table (k + 1) := by
    intro k
    have hticks : s.afterTicks c (k + 1) = some (post k) := by
      calc s.afterTicks c (k + 1)
          = (s.afterTicks c k).bind (fun s => (s.tick (c (k + 1))).bind (fun x => some x.2)) := rfl
        _ = ((table k).tick (c (k + 1))).bind (fun x => some x.2) := by
            rw [htable, Option.bind_some]
        _ = some (post k) := by rw [tick, (hpost k).dispatch, Option.bind_some]
    exact Option.some.inj (hticks.symm.trans (htable (k + 1)))
  refine ⟨table, fun k => returned (k - 1), (Option.some.inj (htable 0)).symm, ?_, ?_⟩
  · intro k hk
    obtain ⟨k, rfl⟩ : ∃ l, k = l + 1 := ⟨k - 1, by omega⟩
    rw [← hsucc k]
    exact hpost k
  · intro k i hi
    simp only [(hafter _).currentTask]
    exact existsUnique_mod k hi

/-- Three tasks, with contexts that are numbers. -/
theorem round_robin_three :
    ∃ (table : ℕ → Scheluder ℕ) (returned : ℕ → ℕ),
      table 0 = ⟨id, fun i => ⟨.DEAD, 100 + i⟩, 0, 3⟩ ∧
      (∀ k, 1 ≤ k → Scheluder.RoundRobin ⟨id, fun i => ⟨.DEAD, 100 + i⟩, 0, 3⟩ id k (table (k - 1))
        (returned k) (table k)) ∧
      ∀ k, ∀ i < 3, ∃! j, (k < j ∧ j ≤ k + 3) ∧ (table j).currentTask = i :=
  round_robin (s := ⟨id, fun i => ⟨.DEAD, 100 + i⟩, 0, 3⟩) (Set.injOn_id _) (by decide) rfl id

end Potatos.Scheluder
