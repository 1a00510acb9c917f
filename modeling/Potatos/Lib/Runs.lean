import Mathlib.Data.List.Basic
import Mathlib.Tactic.Basic

/-!
# Runs of a labelled step relation

A component is given by a relation `step : σ → α → σ → Prop`: from a state, under a label, to a
state. A `Run` is a finite sequence of steps, and it carries the list of its transitions, so that a
condition on a run is a condition on every transition of it, and a property of a run is a property
of every transition or of every state that it reaches.

`Run.invariant` is the only induction: what holds at the start and is kept by each step under the
run's condition holds at the end. `Run.invariant_pre` gives the same before each transition.
-/

namespace Lib

variable {σ α : Type*}

/-- One step of a run: the state before, the label, and the state after. -/
structure Transition (σ α : Type*) where
  pre : σ
  label : α
  post : σ

/-- The runs of `step`: from the first state, by the transitions of the list, to the last. -/
inductive Run (step : σ → α → σ → Prop) : σ → List (Transition σ α) → σ → Prop where
  | nil (s : σ) : Run step s [] s
  | cons {s t u : σ} {a : α} {ts : List (Transition σ α)} :
      step s a t → Run step t ts u → Run step s (⟨s, a, t⟩ :: ts) u

variable {step : σ → α → σ → Prop} {s t u : σ} {ts us : List (Transition σ α)}

/-- Two runs compose. -/
theorem Run.append (h : Run step s ts t) (h' : Run step t us u) : Run step s (ts ++ us) u := by
  induction h with
  | nil s => exact h'
  | cons hstep _ ih => exact .cons hstep (ih h')

/-- One step is a run. -/
theorem Run.single {a : α} (h : step s a t) : Run step s [⟨s, a, t⟩] t := .cons h (.nil t)

/-- A run splits at every point of its transitions. -/
theorem Run.split (h : Run step s (ts ++ us) u) : ∃ m, Run step s ts m ∧ Run step m us u := by
  induction ts generalizing s with
  | nil => exact ⟨s, .nil s, h⟩
  | cons x ts ih =>
    cases h with
    | cons hstep hrest =>
      obtain ⟨m, hts, hus⟩ := ih hrest
      exact ⟨m, .cons hstep hts, hus⟩

/-- Each transition of a run is a step from a state that a prefix of the run reaches. -/
theorem Run.prefix_of_mem (h : Run step s ts u) {x : Transition σ α} (hx : x ∈ ts) :
    ∃ l r, ts = l ++ x :: r ∧ Run step s l x.pre ∧ step x.pre x.label x.post ∧
      Run step x.post r u := by
  obtain ⟨l, r, rfl⟩ := List.append_of_mem hx
  obtain ⟨m, hl, hr⟩ := h.split
  cases hr with
  | cons hstep hrest => exact ⟨l, r, rfl, hl, hstep, hrest⟩

/-- A function that takes steps which meet a condition takes runs of such steps. -/
theorem Run.of_foldlM {exec : σ → α → Option σ} {G : σ → α → Prop}
    (hexec : ∀ s a t, exec s a = some t → step s a t ∧ G s a) {as : List α}
    (h : as.foldlM exec s = some t) :
    ∃ ts, Run step s ts t ∧ ts.map Transition.label = as ∧ ∀ x ∈ ts, G x.pre x.label := by
  induction as generalizing s with
  | nil =>
    obtain rfl := Option.some.inj h
    exact ⟨[], .nil s, rfl, fun x hx => absurd hx List.not_mem_nil⟩
  | cons a as ih =>
    rw [List.foldlM_cons] at h
    obtain ⟨m, hm, hrest⟩ := Option.bind_eq_some_iff.mp h
    obtain ⟨hstep, hG⟩ := hexec s a m hm
    obtain ⟨ts, hts, hlabels, hGs⟩ := ih hrest
    exact ⟨⟨s, a, m⟩ :: ts, .cons hstep hts, congrArg (a :: ·) hlabels,
      List.forall_mem_cons.mpr ⟨hG, hGs⟩⟩

/-- An invariant of the steps that meet a condition `G` holds at the end of every run whose
transitions meet it. -/
theorem Run.invariant {Inv : σ → Prop} {G : σ → α → Prop} (h : Run step s ts u) (h0 : Inv s)
    (hG : ∀ x ∈ ts, G x.pre x.label)
    (hkeep : ∀ s a t, Inv s → G s a → step s a t → Inv t) : Inv u := by
  induction h with
  | nil s => exact h0
  | cons hstep _ ih =>
    have hhead := hG _ (List.mem_cons_self ..)
    exact ih (hkeep _ _ _ h0 hhead hstep) (fun x hx => hG x (List.mem_cons_of_mem _ hx))

/-- The same before each transition of the run. -/
theorem Run.invariant_pre {Inv : σ → Prop} {G : σ → α → Prop} (h : Run step s ts u) (h0 : Inv s)
    (hG : ∀ x ∈ ts, G x.pre x.label)
    (hkeep : ∀ s a t, Inv s → G s a → step s a t → Inv t) {x : Transition σ α} (hx : x ∈ ts) :
    Inv x.pre := by
  obtain ⟨l, r, rfl, hl, -, -⟩ := h.prefix_of_mem hx
  exact hl.invariant h0 (fun y hy => hG y (List.mem_append_left _ hy)) hkeep

/-- A property `P` of transitions that goes with a condition `G` on the step, as long as an
invariant holds that `P` keeps: a run has the property throughout if and only if every step meets
the condition. -/
theorem Run.forall_iff {Inv : σ → Prop} {P : Transition σ α → Prop} {G : σ → α → Prop}
    (h : Run step s ts u) (h0 : Inv s)
    (hiff : ∀ s a t, Inv s → step s a t → (P ⟨s, a, t⟩ ↔ G s a))
    (hkeep : ∀ s a t, Inv s → step s a t → P ⟨s, a, t⟩ → Inv t) :
    (∀ x ∈ ts, P x) ↔ ∀ x ∈ ts, G x.pre x.label := by
  induction h with
  | nil s => simp
  | cons hstep _ ih =>
    have hhead := hiff _ _ _ h0 hstep
    rw [List.forall_mem_cons, List.forall_mem_cons]
    constructor
    · rintro ⟨hP, hrest⟩
      exact ⟨hhead.mp hP, (ih (hkeep _ _ _ h0 hstep hP)).mp hrest⟩
    · rintro ⟨hG, hrest⟩
      have hP := hhead.mpr hG
      exact ⟨hP, (ih (hkeep _ _ _ h0 hstep hP)).mpr hrest⟩

/-- An invariant of every step holds at the end of every run. -/
theorem Run.invariant_all {Inv : σ → Prop} (h : Run step s ts u) (h0 : Inv s)
    (hkeep : ∀ s a t, Inv s → step s a t → Inv t) : Inv u :=
  h.invariant (G := fun _ _ => True) h0 (fun _ _ => trivial)
    (fun s a t hs _ hstep => hkeep s a t hs hstep)

/-- A run whose steps are simulated is simulated, with the same labels. -/
theorem Run.simulate {σ' : Type*} {step' : σ' → α → σ' → Prop} {R : σ → σ' → Prop} {s' : σ'}
    (h : Run step s ts u) (h0 : R s s')
    (hsim : ∀ s a t s', R s s' → step s a t → ∃ t', step' s' a t' ∧ R t t') :
    ∃ ts' u', Run step' s' ts' u' ∧ R u u' ∧
      ts'.map Transition.label = ts.map Transition.label := by
  induction h generalizing s' with
  | nil s => exact ⟨[], s', .nil s', h0, rfl⟩
  | @cons s t u a ts hstep _ ih =>
    obtain ⟨t', hstep', hR⟩ := hsim s a t s' h0 hstep
    obtain ⟨ts', u', hrun', hR', hlabels⟩ := ih hR
    exact ⟨⟨s', a, t'⟩ :: ts', u', .cons hstep' hrun', hR', congrArg (a :: ·) hlabels⟩

end Lib
