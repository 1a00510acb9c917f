import Mathlib.Data.Fintype.Card
import Potatos.Lib.Runs

/-!
# Writers that poll a queue

Some writers share a queue of a fixed capacity. A writer looks whether the queue is empty, and puts
its next item in some time after it has seen that, whatever the others have done in between. Items
leave the queue at any time. An item that is put into a full queue is lost.

A writer that has seen the queue empty puts one item in before it looks again, so the items in the
queue and the writers that are about to write are together never more than the writers
(`Accounted.step`). With as many places as writers no item is lost, whatever the order of the steps,
and with fewer one can be (`exists_lost`).
-/

namespace Lib

/-- The queue, what has left it, what was lost, the writers that have seen it empty, what each has
still to write, and the writes so far. -/
@[ext]
structure PolledQueue (ι β : Type*) where
  queue : List β
  sent : List β
  lost : List β
  ready : ι → Bool
  rest : ι → List β
  log : List (ι × β)

/-- What may happen. -/
inductive PolledEvent (ι : Type*) where
  | poll (i : ι)
  | write (i : ι)
  | send

namespace PolledQueue

variable {ι β : Type*} [DecidableEq ι]

/-- An item is put in, or lost. -/
def push (cap : ℕ) (s : PolledQueue ι β) (i : ι) (b : β) (bs : List β) : PolledQueue ι β where
  queue := if s.queue.length < cap then s.queue ++ [b] else s.queue
  sent := s.sent
  lost := if s.queue.length < cap then s.lost else s.lost ++ [b]
  ready := Function.update s.ready i false
  rest := Function.update s.rest i bs
  log := s.log ++ [(i, b)]

/-- One step of a writer or of the queue. -/
inductive Step (cap : ℕ) : PolledQueue ι β → PolledEvent ι → PolledQueue ι β → Prop where
  | poll {s : PolledQueue ι β} {i : ι} : s.rest i ≠ [] → s.ready i = false →
      Step cap s (.poll i) { s with ready := Function.update s.ready i s.queue.isEmpty }
  | write {s : PolledQueue ι β} {i : ι} {b : β} {bs : List β} : s.ready i = true →
      s.rest i = b :: bs → Step cap s (.write i) (s.push cap i b bs)
  | send {s : PolledQueue ι β} {b : β} {bs : List β} : s.queue = b :: bs →
      Step cap s .send { s with queue := bs, sent := s.sent ++ [b] }

/-- An empty queue, behind which `sent` has been sent. -/
def start (sent : List β) (texts : ι → List β) : PolledQueue ι β :=
  ⟨[], sent, [], fun _ => false, texts, []⟩

/-- Nothing is lost, the items leave in the order of the writes, and each writer has written a first
part of its text. -/
structure Accounted (sent : List β) (texts : ι → List β) (s : PolledQueue ι β) : Prop where
  lost : s.lost = []
  order : s.sent ++ s.queue = sent ++ s.log.map Prod.snd
  own : ∀ i, (s.log.filter (fun x => x.1 = i)).map Prod.snd ++ s.rest i = texts i

variable [Fintype ι]

/-- The writers that are about to write. -/
def waiting (s : PolledQueue ι β) : ℕ := (Finset.univ.filter (fun i => s.ready i = true)).card

variable {cap : ℕ} {sent : List β} {texts : ι → List β} {s t : PolledQueue ι β} {e : PolledEvent ι}
  {i : ι} {ts : List (Transition (PolledQueue ι β) (PolledEvent ι))}

omit [DecidableEq ι] in
theorem waiting_le : s.waiting ≤ Fintype.card ι := Finset.card_le_univ _

/-- A writer that writes is not about to write any more. -/
theorem waiting_write (h : s.ready i = true) {t : PolledQueue ι β}
    (ht : t.ready = Function.update s.ready i false) : t.waiting + 1 = s.waiting := by
  have hset : Finset.univ.filter (fun j => t.ready j = true) =
      (Finset.univ.filter (fun j => s.ready j = true)).erase i := by
    ext j
    rw [Finset.mem_erase, Finset.mem_filter_univ, Finset.mem_filter_univ, ht]
    by_cases hj : j = i
    · subst hj
      simp
    · rw [Function.update_of_ne hj]
      exact (and_iff_right hj).symm
  have hmem : i ∈ Finset.univ.filter (fun j => s.ready j = true) := by
    rwa [Finset.mem_filter_univ]
  unfold waiting
  rw [hset]
  exact Finset.card_erase_add_one hmem

/-- The account of the writes, with room for the writers that are about to write. -/
structure Room (sent : List β) (texts : ι → List β) (s : PolledQueue ι β) : Prop where
  accounted : Accounted sent texts s
  room : s.queue.length + s.waiting ≤ Fintype.card ι

theorem room_start : Room sent texts (start sent texts) where
  accounted := ⟨rfl, by simp [start], fun i => rfl⟩
  room := by
    show 0 + (start sent texts).waiting ≤ _
    rw [Nat.zero_add]
    exact waiting_le

theorem Room.step (hcard : Fintype.card ι ≤ cap) (h : Room sent texts s) (hstep : Step cap s e t) :
    Room sent texts t := by
  obtain ⟨⟨hlost, horder, hown⟩, hroom⟩ := h
  cases hstep with
  | @poll i hrest hready =>
    refine ⟨⟨hlost, horder, hown⟩, ?_⟩
    -- It is one more only if the queue is empty.
    cases hq : s.queue with
    | nil =>
      show [].length + _ ≤ _
      rw [List.length_nil, Nat.zero_add]
      exact waiting_le
    | cons b bs =>
      have hsame : Function.update s.ready i s.queue.isEmpty = s.ready := by
        have hempty : (b :: bs).isEmpty = s.ready i := hready.symm
        rw [hq, hempty]
        exact Function.update_eq_self ..
      rw [← hq]
      unfold waiting
      rw [hsame]
      exact hroom
  | @write i b bs hready hrest =>
    have hwaiting := waiting_write (t := s.push cap i b bs) hready rfl
    have hlt : s.queue.length < cap := by omega
    refine ⟨⟨?_, ?_, ?_⟩, ?_⟩
    · show (if _ then _ else _) = _
      rw [if_pos hlt, hlost]
    · show s.sent ++ (if _ then _ else _) = sent ++ (s.log ++ [(i, b)]).map Prod.snd
      rw [if_pos hlt, ← List.append_assoc, horder, List.map_append, List.append_assoc]
      rfl
    · intro j
      show ((s.log ++ [(i, b)]).filter _).map Prod.snd ++ Function.update s.rest i bs j = texts j
      rw [List.filter_append, List.map_append, ← hown j]
      by_cases hj : j = i
      · subst hj
        simp [hrest]
      · simp [hj, Ne.symm hj]
    · show (if _ then _ else _ : List β).length + _ ≤ _
      rw [if_pos hlt, List.length_append, List.length_singleton]
      omega
  | @send b bs hqueue =>
    refine ⟨⟨hlost, ?_, hown⟩, ?_⟩
    · rw [← horder, hqueue, List.append_assoc]
      rfl
    · rw [hqueue, List.length_cons] at hroom
      show bs.length + s.waiting ≤ _
      omega

/-- With a place for each writer, every item is accounted for in every run. -/
theorem accounted_of_run (hcard : Fintype.card ι ≤ cap)
    (h : Run (Step cap) (start sent texts) ts s) : Accounted sent texts s :=
  have hroom : Room sent texts s :=
    h.invariant_all room_start (fun _ _ _ hs hstep => hs.step hcard hstep)
  hroom.accounted

/-! ## Fewer places -/

omit [Fintype ι] in
/-- Some writers look one after the other, and find the queue empty. -/
theorem exists_polls (cap : ℕ) {l : List ι} (hl : l.Nodup) (hqueue : s.queue = [])
    (hidle : ∀ i ∈ l, s.rest i ≠ [] ∧ s.ready i = false) :
    ∃ ts t, Run (Step cap) s ts t ∧ t.queue = [] ∧ t.lost = s.lost ∧ t.rest = s.rest ∧
      (∀ i, s.ready i = true → t.ready i = true) ∧ ∀ i ∈ l, t.ready i = true := by
  induction l generalizing s with
  | nil => exact ⟨[], s, .nil s, hqueue, rfl, rfl, fun _ hi => hi, fun i hi => by cases hi⟩
  | cons i l ih =>
    obtain ⟨hnew, hl⟩ := List.nodup_cons.mp hl
    obtain ⟨hrest, hready⟩ := hidle i List.mem_cons_self
    have hempty : s.queue.isEmpty = true := by rw [hqueue, List.isEmpty_nil]
    have hpoll : Step cap s (.poll i) { s with ready := Function.update s.ready i true } :=
      hempty ▸ .poll hrest hready
    obtain ⟨ts, t, hrun, hq, hlost, hsame, hkeep, hall⟩ := ih
      (s := { s with ready := Function.update s.ready i true }) hl hqueue (by
        intro j hj
        have hne : j ≠ i := by rintro rfl; exact hnew hj
        refine ⟨(hidle j (List.mem_cons_of_mem _ hj)).1, ?_⟩
        show Function.update s.ready i true j = false
        rw [Function.update_of_ne hne]
        exact (hidle j (List.mem_cons_of_mem _ hj)).2)
    refine ⟨_, t, .cons hpoll hrun, hq, hlost, hsame, fun j hj => hkeep j ?_, fun j hj => ?_⟩
    · by_cases hji : j = i
      · subst hji
        exact Function.update_self ..
      · exact (Function.update_of_ne hji ..).trans hj
    · rcases List.mem_cons.mp hj with rfl | hj
      · exact hkeep j (Function.update_self ..)
      · exact hall j hj

omit [Fintype ι] in
/-- They all write, and nothing leaves the queue. -/
theorem exists_writes (cap : ℕ) {l : List ι} (hl : l.Nodup) (hqueue : s.queue.length ≤ cap)
    (hready : ∀ i ∈ l, s.ready i = true ∧ s.rest i ≠ []) :
    ∃ ts t, Run (Step cap) s ts t ∧ t.queue.length ≤ cap ∧
      t.queue.length + t.lost.length = s.queue.length + s.lost.length + l.length := by
  induction l generalizing s with
  | nil => exact ⟨[], s, .nil s, hqueue, rfl⟩
  | cons i l ih =>
    obtain ⟨hnew, hl⟩ := List.nodup_cons.mp hl
    obtain ⟨hi, hrest⟩ := hready i List.mem_cons_self
    obtain ⟨b, bs, hb⟩ := List.exists_cons_of_ne_nil hrest
    have hwrite : Step cap s (.write i) (s.push cap i b bs) := .write hi hb
    have hpush : (s.push cap i b bs).queue.length ≤ cap ∧
        (s.push cap i b bs).queue.length + (s.push cap i b bs).lost.length =
          s.queue.length + s.lost.length + 1 := by
      unfold push
      dsimp only
      split_ifs with hlt
      · rw [List.length_append, List.length_singleton]
        omega
      · rw [List.length_append, List.length_singleton]
        omega
    obtain ⟨ts, t, hrun, hle, hsum⟩ := ih (s := s.push cap i b bs) hl hpush.1 (by
      intro j hj
      have hne : j ≠ i := by rintro rfl; exact hnew hj
      unfold push
      dsimp only
      rw [Function.update_of_ne hne, Function.update_of_ne hne]
      exact hready j (List.mem_cons_of_mem _ hj))
    refine ⟨_, t, .cons hwrite hrun, hle, ?_⟩
    rw [List.length_cons]
    omega

/-- With fewer places than writers that have something to write, an item can be lost. -/
theorem exists_lost (sent : List β) (hcard : cap < Fintype.card ι) (htexts : ∀ i, texts i ≠ []) :
    ∃ ts s, Run (Step cap) (start sent texts) ts s ∧ s.lost ≠ [] := by
  have hnodup : (Finset.univ : Finset ι).toList.Nodup := Finset.nodup_toList _
  obtain ⟨ts, t, hpolls, hqueue, hlost, hrest, -, hready⟩ := exists_polls cap
    (s := start sent texts) hnodup rfl (fun i _ => ⟨htexts i, rfl⟩)
  obtain ⟨us, u, hwrites, hle, hsum⟩ := exists_writes cap (s := t) hnodup
    (by rw [hqueue]; exact Nat.zero_le _)
    (fun i hi => ⟨hready i hi, by rw [hrest]; exact htexts i⟩)
  refine ⟨ts ++ us, u, hpolls.append hwrites, fun hnil => ?_⟩
  have hlength : (Finset.univ : Finset ι).toList.length = Fintype.card ι := Finset.length_toList _
  rw [hnil, hqueue, hlost, hlength] at hsum
  have hzero : (start sent texts).lost.length = 0 := rfl
  simp only [List.length_nil] at hsum
  omega

end PolledQueue

end Lib
