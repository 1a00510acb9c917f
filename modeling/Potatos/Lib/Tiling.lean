import Mathlib.Data.List.Basic
import Mathlib.Data.List.Pairwise
import Mathlib.Tactic.Basic

/-!
# Lists of blocks that follow one another

Blocks of any type with a start and a length. `Ordered` says that each block ends at or before the
start of every later one, and `Tiles a bs e` that the blocks cover `[a, e)` without gaps, each
starting where the one before ends. Tiles are ordered, and two blocks of an ordered list are the
same or apart.
-/

namespace Lib

variable {β : Type*} (start len : β → ℕ)

/-- Every block ends at or before the start of the later ones. -/
def Ordered (bs : List β) : Prop := bs.Pairwise (fun b c => start b + len b ≤ start c)

/-- The blocks cover `[a, e)`, each from where the one before ends. -/
def Tiles : ℕ → List β → ℕ → Prop
  | a, [], e => a = e
  | a, b :: bs, e => start b = a ∧ Tiles (a + len b) bs e

variable {start len} {a e m : ℕ} {b c : β} {bs l r : List β}

@[simp] theorem tiles_nil : Tiles start len a [] e ↔ a = e := Iff.rfl

theorem tiles_cons :
    Tiles start len a (b :: bs) e ↔ start b = a ∧ Tiles start len (a + len b) bs e := Iff.rfl

/-- A member of a list from which another one has been taken. -/
theorem mem_of_rest (hb : b ∈ l ++ r) : b ∈ l ++ c :: r := by
  rcases List.mem_append.mp hb with hb | hb
  · exact List.mem_append_left _ hb
  · exact List.mem_append_right _ (List.mem_cons_of_mem _ hb)

theorem mem_rest (hb : b ∈ l ++ c :: r) (hne : b ≠ c) : b ∈ l ++ r := by
  rcases List.mem_append.mp hb with hb | hb
  · exact List.mem_append_left _ hb
  · exact List.mem_append_right _ (List.mem_of_ne_of_mem hne hb)

/-- One block. -/
theorem tiles_single : Tiles start len (start b) [b] (start b + len b) := ⟨rfl, rfl⟩

/-- A tiling splits at every point of its list. -/
theorem tiles_append :
    Tiles start len a (l ++ r) e ↔ ∃ m, Tiles start len a l m ∧ Tiles start len m r e := by
  induction l generalizing a with
  | nil =>
    constructor
    · intro h; exact ⟨a, rfl, h⟩
    · rintro ⟨m, rfl, h⟩; exact h
  | cons b l ih =>
    rw [List.cons_append, tiles_cons, ih]
    constructor
    · rintro ⟨hb, m, hl, hr⟩; exact ⟨m, ⟨hb, hl⟩, hr⟩
    · rintro ⟨m, ⟨hb, hl⟩, hr⟩; exact ⟨hb, m, hl, hr⟩

/-- The blocks up to one of them are a tiling up to its end. -/
theorem Tiles.upto (h : Tiles start len a (l ++ b :: r) e) :
    Tiles start len a (l ++ [b]) (start b + len b) := by
  obtain ⟨m, hl, hb, -⟩ := tiles_append.mp h
  rw [← hb] at hl
  exact tiles_append.mpr ⟨_, hl, tiles_single⟩

theorem Tiles.le (h : Tiles start len a bs e) : a ≤ e := by
  induction bs generalizing a with
  | nil => exact Nat.le_of_eq h
  | cons b bs ih =>
    have := ih h.2
    omega

/-- Every block of a tiling is between its ends. -/
theorem Tiles.bounds (h : Tiles start len a bs e) (hb : b ∈ bs) :
    a ≤ start b ∧ start b + len b ≤ e := by
  induction bs generalizing a with
  | nil => cases hb
  | cons c bs ih =>
    obtain ⟨hc, hrest⟩ := h
    rcases List.mem_cons.mp hb with rfl | hb
    · have := hrest.le
      omega
    · have := ih hrest hb
      omega

/-- The blocks of a tiling determine its ends. -/
theorem Tiles.ends_unique {a' e' : ℕ} (h : Tiles start len a bs e) (h' : Tiles start len a' bs e')
    (hne : bs ≠ []) : a = a' ∧ e = e' := by
  have hend : ∀ {bs : List β} {a e e' : ℕ}, Tiles start len a bs e → Tiles start len a bs e' →
      e = e' := by
    intro bs
    induction bs with
    | nil => intro a e e' h h'; exact Eq.trans (Eq.symm h) h'
    | cons c bs ih => intro a e e' h h'; exact ih h.2 h'.2
  cases bs with
  | nil => exact absurd rfl hne
  | cons c bs =>
    have ha : a = a' := h.1.symm.trans h'.1
    subst ha
    exact ⟨rfl, hend h h'⟩

/-- A tiling is ordered. -/
theorem Tiles.ordered (h : Tiles start len a bs e) : Ordered start len bs := by
  induction bs generalizing a with
  | nil => exact List.Pairwise.nil
  | cons b bs ih =>
    obtain ⟨hb, hrest⟩ := h
    refine List.Pairwise.cons (fun c hc => ?_) (ih hrest)
    have := (hrest.bounds hc).1
    omega

/-- Two blocks of an ordered list are the same or apart. -/
theorem Ordered.eq_or_apart (h : Ordered start len bs) (hb : b ∈ bs) (hc : c ∈ bs) :
    b = c ∨ start b + len b ≤ start c ∨ start c + len c ≤ start b := by
  induction bs with
  | nil => cases hb
  | cons x bs ih =>
    obtain ⟨hx, hrest⟩ := List.pairwise_cons.mp h
    rcases List.mem_cons.mp hb with rfl | hb'
    · rcases List.mem_cons.mp hc with rfl | hc'
      · exact Or.inl rfl
      · exact Or.inr (Or.inl (hx c hc'))
    · rcases List.mem_cons.mp hc with rfl | hc'
      · exact Or.inr (Or.inr (hx b hb'))
      · exact ih hrest hb' hc'

/-- Blocks of positive length with the same start are the same. -/
theorem Ordered.eq_of_start (h : Ordered start len bs) (hb : b ∈ bs) (hc : c ∈ bs)
    (hpos : ∀ x ∈ bs, 0 < len x) (heq : start b = start c) : b = c := by
  have hb0 := hpos b hb
  have hc0 := hpos c hc
  rcases h.eq_or_apart hb hc with h | h | h
  · exact h
  · omega
  · omega

end Lib
