import Mathlib.Data.List.Basic
import Mathlib.Tactic.Basic

/-!
# Walks of a radix tree

Nodes with indexed children. `descend` follows a list of indices from a node, and `At n x` says that
a walk of `n` indices from the root ends at `x`. The tables of the tree are the nodes at depth up to
`D`; `Layered` says that no node is a table at two depths, which is all of the tree structure that
is needed: a node may have several parents.

Two changes are covered. `Link` puts a new empty table under a free slot of a table. The walks that
leave the tables do not notice it. `SetLeaf` changes a slot of a table at depth `D`, and only the
walks that end in that slot notice.
-/

namespace Lib

variable {N I : Type*}

/-- Follow the indices from a node. -/
def descend (child : N → I → Option N) : N → List I → Option N
  | x, [] => some x
  | x, i :: p => (child x i).bind (fun y => descend child y p)

/-- A walk of `n` indices from the root ends at `x`. -/
def At (child : N → I → Option N) (root : N) (n : ℕ) (x : N) : Prop :=
  ∃ p : List I, p.length = n ∧ descend child root p = some x

/-- No node is at two depths up to `D`. -/
def Layered (child : N → I → Option N) (root : N) (D : ℕ) : Prop :=
  ∀ m n x, m ≤ D → n ≤ D → At child root m x → At child root n x → m = n

variable {child child' : N → I → Option N} {root x y f g : N} {i j : I} {p q : List I}
  {D k n : ℕ}

@[simp] theorem descend_nil : descend child x [] = some x := rfl

@[simp] theorem descend_cons :
    descend child x (i :: p) = (child x i).bind (fun y => descend child y p) := rfl

/-- A walk whose first step is known. -/
theorem descend_step (h : child x i = some y) :
    descend child x (i :: p) = descend child y p := by
  rw [descend_cons, h, Option.bind_some]

/-- A walk that has no first step. -/
theorem descend_stop (h : child x i = none) : descend child x (i :: p) = none := by
  rw [descend_cons, h, Option.bind_none]

theorem descend_append :
    descend child x (p ++ q) = (descend child x p).bind (fun y => descend child y q) := by
  induction p generalizing x with
  | nil => rfl
  | cons i p ih =>
    rw [List.cons_append, descend_cons, descend_cons]
    cases child x i with
    | none => rfl
    | some y => exact ih

theorem descend_snoc :
    descend child x (p ++ [i]) = (descend child x p).bind (fun y => child y i) := by
  rw [descend_append]
  congr 1
  funext y
  rw [descend_cons]
  cases child y i <;> rfl

/-- The last step of a walk. -/
theorem descend_last (h : descend child x (p ++ [i]) = some y) :
    ∃ z, descend child x p = some z ∧ child z i = some y := by
  rw [descend_snoc] at h
  exact Option.bind_eq_some_iff.mp h

/-- A walk that succeeds succeeds up to each node of it. -/
theorem descend_of_append (h : descend child x (p ++ q) ≠ none) : descend child x p ≠ none := by
  intro hnone
  rw [descend_append, hnone] at h
  exact h rfl

theorem at_zero : At child root 0 x ↔ x = root := by
  constructor
  · rintro ⟨p, hp, hd⟩
    obtain rfl := List.length_eq_zero_iff.mp hp
    exact (Option.some.inj hd).symm
  · rintro rfl
    exact ⟨[], rfl, rfl⟩

/-- A child of a node is one deeper. -/
theorem At.step (h : At child root n x) (hy : child x i = some y) : At child root (n + 1) y := by
  obtain ⟨p, hp, hd⟩ := h
  refine ⟨p ++ [i], by rw [List.length_append, hp]; rfl, ?_⟩
  rw [descend_append, hd]
  show (child x i).bind _ = some y
  rw [hy]
  rfl

/-- A node below the root is a child of a node one depth up. -/
theorem at_succ : At child root (n + 1) y ↔ ∃ x i, At child root n x ∧ child x i = some y := by
  constructor
  · rintro ⟨p, hp, hd⟩
    have hne : p ≠ [] := by rintro rfl; cases hp
    rw [← List.dropLast_append_getLast hne, descend_append] at hd
    obtain ⟨x, hx, hy⟩ := Option.bind_eq_some_iff.mp hd
    have hlen : p.dropLast.length = n := by rw [List.length_dropLast, hp]; rfl
    obtain ⟨z, hz, hzy⟩ := Option.bind_eq_some_iff.mp hy
    exact ⟨x, _, ⟨_, hlen, hx⟩, hz.trans hzy⟩
  · rintro ⟨x, i, hx, hy⟩
    exact hx.step hy

/-! ## The slots that a walk reads -/

/-- The slots that a walk reads, in order. -/
def slots (child : N → I → Option N) : N → List I → List (N × I)
  | _, [] => []
  | x, i :: p => (x, i) :: ((child x i).map (fun y => slots child y p)).getD []

theorem slots_cons_some (h : child x i = some y) :
    slots child x (i :: p) = (x, i) :: slots child y p := by
  rw [slots, h]
  rfl

/-- A walk depends only on the slots that it reads. -/
theorem descend_of_slots (h : ∀ z ∈ slots child x p, child' z.1 z.2 = child z.1 z.2) :
    descend child' x p = descend child x p := by
  induction p generalizing x with
  | nil => rfl
  | cons i p ih =>
    have hi : child' x i = child x i := h (x, i) (List.mem_cons_self ..)
    rw [descend_cons, descend_cons, hi]
    cases hy : child x i with
    | none => rfl
    | some y =>
      rw [slots_cons_some hy] at h
      exact ih (fun z hz => h z (List.mem_cons_of_mem _ hz))

/-- The slots of a walk from depth `n` are in nodes at the depths from `n` on, and only the first
one is at depth `n`. -/
theorem mem_slots (hx : At child root n x) {z : N × I} (hz : z ∈ slots child x p) :
    (∃ p', p = z.2 :: p' ∧ z.1 = x) ∨
      ∃ m, n < m ∧ m < n + p.length ∧ At child root m z.1 := by
  induction p generalizing n x with
  | nil => cases hz
  | cons i p ih =>
    cases hy : child x i with
    | none =>
      rw [slots, hy] at hz
      obtain rfl := List.mem_singleton.mp hz
      exact Or.inl ⟨p, rfl, rfl⟩
    | some y =>
      rw [slots_cons_some hy] at hz
      rcases List.mem_cons.mp hz with rfl | hz
      · exact Or.inl ⟨p, rfl, rfl⟩
      · have hstep := hx.step hy
        rw [List.length_cons]
        -- The slot of the next node is one deeper, and those behind it deeper still.
        rcases ih hstep hz with ⟨p', rfl, hz1⟩ | ⟨m, h1, h2, hm⟩
        · exact Or.inr ⟨n + 1, by omega, by rw [List.length_cons]; omega, hz1 ▸ hstep⟩
        · exact Or.inr ⟨m, by omega, by omega, hm⟩

/-- The depths of the slots of a walk from the root. -/
theorem mem_slots_root {z : N × I} (hz : z ∈ slots child root p) :
    ∃ m, m < p.length ∧ At child root m z.1 := by
  rcases mem_slots (at_zero.mpr rfl) hz with ⟨p', rfl, hz1⟩ | ⟨m, -, h2, hm⟩
  · exact ⟨0, Nat.zero_lt_succ _, at_zero.mpr hz1⟩
  · exact ⟨m, by omega, hm⟩

/-! ## A new table -/

/-- `child'` is `child` with the new empty table `g` in the free slot `i` of the table `f`. -/
structure Link (child child' : N → I → Option N) (root : N) (D k : ℕ) (f : N) (i : I) (g : N) :
    Prop where
  depth : k < D
  table : At child root k f
  free : child f i = none
  new : child' f i = some g
  fresh : ∀ n ≤ D, ¬ At child root n g
  empty : ∀ j, child' g j = none
  other : ∀ x j, x ≠ g → ¬ (x = f ∧ j = i) → child' x j = child x j

/-- Walks out of the tables are as before. -/
theorem Link.descend_full (h : Link child child' root D k f i g) (hl : Layered child root D)
    (hx : At child root n x) (hp : n + p.length = D + 1) :
    descend child' x p = descend child x p := by
  induction p generalizing n x with
  | nil => rfl
  | cons j p ih =>
    rw [List.length_cons] at hp
    have hxg : x ≠ g := fun heq => h.fresh n (by omega) (heq ▸ hx)
    rw [descend_cons, descend_cons]
    by_cases hslot : x = f ∧ j = i
    · -- the new table is empty, and the walk does not end in it
      obtain ⟨rfl, rfl⟩ := hslot
      have hnk : n = k := hl n k x (by omega) (Nat.le_of_lt h.depth) hx h.table
      have hk := h.depth
      rw [h.free, h.new]
      cases p with
      | nil => rw [List.length_nil] at hp; omega
      | cons j' p => show (child' g j').bind _ = none; rw [h.empty]; rfl
    · rw [h.other x j hxg hslot]
      cases hy : child x j with
      | none => rfl
      | some y => exact ih (hx.step hy) (by omega)

/-- Walks to tables are as before, or end at the new table. -/
theorem Link.descend_table (h : Link child child' root D k f i g) (hl : Layered child root D)
    (hx : At child root n x) (hp : n + p.length ≤ D) :
    descend child' x p = descend child x p ∨
      (n + p.length = k + 1 ∧ descend child x p = none ∧ descend child' x p = some g) ∨
      (descend child x p = none ∧ descend child' x p = none) := by
  induction p generalizing n x with
  | nil => exact Or.inl rfl
  | cons j p ih =>
    rw [List.length_cons] at hp ⊢
    have hxg : x ≠ g := fun heq => h.fresh n (by omega) (heq ▸ hx)
    rw [descend_cons, descend_cons]
    by_cases hslot : x = f ∧ j = i
    · -- The walk takes the new link: it ends in the new table, or the next step finds it empty.
      obtain ⟨rfl, rfl⟩ := hslot
      have hnk : n = k := hl n k x (by omega) (Nat.le_of_lt h.depth) hx h.table
      rw [h.free, h.new]
      cases p with
      | nil => exact Or.inr (Or.inl ⟨by rw [List.length_nil]; omega, rfl, rfl⟩)
      | cons j' p =>
        refine Or.inr (Or.inr ⟨rfl, ?_⟩)
        show (child' g j').bind _ = none
        rw [h.empty]
        rfl
    · -- The step is as it was.
      rw [h.other x j hxg hslot]
      cases hy : child x j with
      | none => exact Or.inl rfl
      | some y =>
        have := ih (hx.step hy) (by omega)
        rw [show n + (p.length + 1) = n + 1 + p.length by omega]
        exact this

/-- Walks to tables that succeed are as before. -/
theorem Link.keeps (h : Link child child' root D k f i g) (hl : Layered child root D)
    (hp : p.length ≤ D) (hd : descend child root p = some x) : descend child' root p = some x := by
  have hroot : At child root 0 root := at_zero.mpr rfl
  rcases h.descend_table hl hroot (p := p) (by omega) with heq | ⟨-, hnone, -⟩ | ⟨hnone, -⟩
  · exact heq.trans hd
  · rw [hnone] at hd; cases hd
  · rw [hnone] at hd; cases hd

/-- The walk through the new link. -/
theorem Link.descend_new (h : Link child child' root D k f i g) (hl : Layered child root D)
    (hp : p.length ≤ D) (hd : descend child root p = some f) :
    descend child' root (p ++ [i]) = some g := by
  rw [descend_snoc, h.keeps hl hp hd]
  exact h.new

/-- The tables afterwards are the old ones and the new one. -/
theorem Link.at_iff (h : Link child child' root D k f i g) (hl : Layered child root D)
    (hn : n ≤ D) : At child' root n x ↔ At child root n x ∨ (n = k + 1 ∧ x = g) := by
  have hroot : At child root 0 root := at_zero.mpr rfl
  constructor
  · rintro ⟨p, hp, hd⟩
    rcases h.descend_table hl hroot (p := p) (by omega) with heq | ⟨hk, -, hg⟩ | ⟨-, hnone⟩
    · exact Or.inl ⟨p, hp, heq ▸ hd⟩
    · exact Or.inr ⟨by omega, Option.some.inj (hd.symm.trans hg)⟩
    · rw [hnone] at hd; cases hd
  · rintro (⟨p, hp, hd⟩ | ⟨rfl, rfl⟩)
    · exact ⟨p, hp, h.keeps hl (by omega) hd⟩
    · obtain ⟨p, hp, hd⟩ := h.table
      have hf : At child' root k f := ⟨p, hp, h.keeps hl (by omega) hd⟩
      exact hf.step h.new

/-- The new table keeps the layers. -/
theorem Link.layered (h : Link child child' root D k f i g) (hl : Layered child root D) :
    Layered child' root D := by
  intro m n x hm hn hxm hxn
  rcases (h.at_iff hl hm).mp hxm with hm' | ⟨rfl, rfl⟩
  · rcases (h.at_iff hl hn).mp hxn with hn' | ⟨rfl, rfl⟩
    · exact hl m n x hm hn hm' hn'
    · exact absurd hm' (h.fresh m hm)
  · rcases (h.at_iff hl hn).mp hxn with hn' | ⟨rfl, -⟩
    · exact absurd hn' (h.fresh n hn)
    · rfl

/-! ## A changed leaf -/

/-- `child'` differs from `child` in the slot `i` of the table `f` at depth `D` only. -/
structure SetLeaf (child child' : N → I → Option N) (root : N) (D : ℕ) (f : N) (i : I) : Prop where
  table : At child root D f
  other : ∀ x j, ¬ (x = f ∧ j = i) → child' x j = child x j

/-- Walks to tables do not notice. -/
theorem SetLeaf.descend_table (h : SetLeaf child child' root D f i) (hl : Layered child root D)
    (hp : p.length ≤ D) : descend child' root p = descend child root p := by
  apply descend_of_slots
  intro z hz
  obtain ⟨m, hm, hat⟩ := mem_slots_root hz
  refine h.other z.1 z.2 (fun hs => ?_)
  have := hl m D z.1 (by omega) (Nat.le_refl D) hat (hs.1 ▸ h.table)
  omega

/-- The tables are the same. -/
theorem SetLeaf.at_iff (h : SetLeaf child child' root D f i) (hl : Layered child root D)
    (hn : n ≤ D) : At child' root n x ↔ At child root n x := by
  have heq : ∀ p : List I, p.length = n → descend child' root p = descend child root p :=
    fun p hp => h.descend_table hl (by omega)
  constructor
  · rintro ⟨p, hp, hd⟩
    exact ⟨p, hp, (heq p hp) ▸ hd⟩
  · rintro ⟨p, hp, hd⟩
    exact ⟨p, hp, (heq p hp).trans hd⟩

theorem SetLeaf.layered (h : SetLeaf child child' root D f i) (hl : Layered child root D) :
    Layered child' root D :=
  fun m n x hm hn hxm hxn =>
    hl m n x hm hn ((h.at_iff hl hm).mp hxm) ((h.at_iff hl hn).mp hxn)

/-- Walks out of the tables that end in another slot are as before. -/
theorem SetLeaf.descend_other (h : SetLeaf child child' root D f i) (hl : Layered child root D)
    (hp : p.length = D) (hslot : ¬ (descend child root p = some f ∧ j = i)) :
    descend child' root (p ++ [j]) = descend child root (p ++ [j]) := by
  rw [descend_append, descend_append, h.descend_table hl (by omega)]
  cases hd : descend child root p with
  | none => rfl
  | some y =>
    have hother : child' y j = child y j :=
      h.other y j (fun hs => hslot ⟨hd.trans (congrArg some hs.1), hs.2⟩)
    show (child' y j).bind _ = (child y j).bind _
    rw [hother]
    rfl

/-! ## Changes outside the tables -/

/-- A walk of at most `D + 1` steps reads the tables only. -/
theorem descend_of_tables (h : ∀ n ≤ D, ∀ x, At child root n x → ∀ i, child' x i = child x i)
    (hp : p.length ≤ D + 1) : descend child' root p = descend child root p := by
  apply descend_of_slots
  intro z hz
  obtain ⟨m, hm, hat⟩ := mem_slots_root hz
  exact h m (by omega) z.1 hat z.2

theorem at_of_tables (h : ∀ n ≤ D, ∀ x, At child root n x → ∀ i, child' x i = child x i)
    (hn : n ≤ D + 1) : At child' root n x ↔ At child root n x := by
  constructor
  · rintro ⟨p, hp, hd⟩
    exact ⟨p, hp, (descend_of_tables h (by omega)).symm.trans hd⟩
  · rintro ⟨p, hp, hd⟩
    exact ⟨p, hp, (descend_of_tables h (by omega)).trans hd⟩

/-! ## Walks without aliases -/

/-- Different walks of `W` of one length, up to `D`, end at different tables. -/
def NoAlias (child : N → I → Option N) (root : N) (W : List I → Prop) (D : ℕ) : Prop :=
  ∀ p q x, W p → W q → p.length = q.length → p.length ≤ D →
    descend child root p = some x → descend child root q = some x → p = q

/-- The walk to a new table ends in its slot. -/
theorem Link.last_step (h : Link child child' root D k f i g) (hl : Layered child root D)
    (hp : p.length ≤ D) (hd : descend child' root p = some g) :
    ∃ p', p = p' ++ [i] ∧ descend child root p' = some f := by
  have hroot : At child root 0 root := at_zero.mpr rfl
  have hne : p ≠ [] := by
    rintro rfl
    exact h.fresh 0 (Nat.zero_le _) (at_zero.mpr (Option.some.inj hd).symm)
  have hlen : p.dropLast.length + 1 = p.length := by
    rw [List.length_dropLast]
    have := List.length_pos_iff.mpr hne
    omega
  have hsplit := List.dropLast_append_getLast hne
  rw [← hsplit, descend_append] at hd
  obtain ⟨y, hy, hlast⟩ := Option.bind_eq_some_iff.mp hd
  have hstep : child' y (p.getLast hne) = some g := by
    obtain ⟨z, hz, hzg⟩ := Option.bind_eq_some_iff.mp hlast
    exact hz.trans hzg
  have hyg : y ≠ g := by
    rintro rfl
    rw [h.empty] at hstep
    cases hstep
  -- the walk up to the last step is an old one
  have hold : descend child root p.dropLast = some y := by
    rcases h.descend_table hl hroot (p := p.dropLast) (by omega) with heq | ⟨-, -, hg⟩ | ⟨-, hnone⟩
    · exact heq ▸ hy
    · exact absurd (Option.some.inj (hy.symm.trans hg)) hyg
    · rw [hnone] at hy; cases hy
  by_cases hslot : y = f ∧ p.getLast hne = i
  · refine ⟨p.dropLast, ?_, hslot.1 ▸ hold⟩
    rw [← hslot.2, hsplit]
  · rw [h.other y _ hyg hslot] at hstep
    have hat : At child root p.dropLast.length y := ⟨_, rfl, hold⟩
    exact absurd (hat.step hstep) (h.fresh _ (by omega))

/-- The new table is empty, so no walk gets two steps further. -/
theorem Link.descend_none (h : Link child child' root D k f i g) (hl : Layered child root D)
    (hp : p.length + 1 ≤ D) (hnone : descend child root p = none) :
    descend child' root (p ++ [j]) = none := by
  have hroot : At child root 0 root := at_zero.mpr rfl
  have hlen : (p ++ [j]).length ≤ D := by rwa [List.length_append, List.length_singleton]
  rcases h.descend_table hl hroot (p := p ++ [j]) (by omega) with heq | ⟨-, -, hg⟩ | ⟨-, hd⟩
  · rw [heq, descend_append, hnone]
    rfl
  · obtain ⟨p', hsplit, hf⟩ := h.last_step hl hlen hg
    obtain ⟨rfl, -⟩ := List.append_inj' hsplit rfl
    rw [hnone] at hf
    cases hf
  · exact hd

/-- A new table has one walk to it when its parent has. -/
theorem Link.noAlias {W : List I → Prop} (h : Link child child' root D k f i g)
    (hl : Layered child root D) (hW : ∀ p i, W (p ++ [i]) → W p) (hn : NoAlias child root W D) :
    NoAlias child' root W D := by
  have hroot : At child root 0 root := at_zero.mpr rfl
  -- a walk that is not to the new table is an old one
  have hold : ∀ p x, p.length ≤ D → descend child' root p = some x → x ≠ g →
      descend child root p = some x := by
    intro p x hp hd hx
    rcases h.descend_table hl hroot (p := p) (by omega) with heq | ⟨-, -, hg⟩ | ⟨-, hnone⟩
    · exact heq ▸ hd
    · exact absurd (Option.some.inj (hd.symm.trans hg)) hx
    · rw [hnone] at hd; cases hd
  intro p q x hWp hWq hlen hp hdp hdq
  by_cases hx : x = g
  · subst hx
    obtain ⟨p', rfl, hp'⟩ := h.last_step hl hp hdp
    obtain ⟨q', rfl, hq'⟩ := h.last_step hl (hlen ▸ hp) hdq
    rw [List.length_append, List.length_append] at hlen
    rw [List.length_append] at hp
    rw [hn p' q' f (hW p' i hWp) (hW q' i hWq) (by omega) (by omega) hp' hq']
  · exact hn p q x hWp hWq hlen hp (hold p x hp hdp hx) (hold q x (hlen ▸ hp) hdq hx)

/-- Changes that keep the walks to tables keep them free of aliases. -/
theorem NoAlias.congr {W : List I → Prop} (hn : NoAlias child root W D)
    (h : ∀ p : List I, p.length ≤ D → descend child' root p = descend child root p) :
    NoAlias child' root W D := by
  intro p q x hWp hWq hlen hp hdp hdq
  rw [h p hp] at hdp
  rw [h q (hlen ▸ hp)] at hdq
  exact hn p q x hWp hWq hlen hp hdp hdq

end Lib
