import Potatos.Mem.Paging
import Mathlib.Logic.Relation

/-!
# `map_page` through the self-map

The tables below `p4_table`, with its slot 510 left out, are a radix tree (`tree`). `WellPaged` says
that slot 510 maps `p4_table` to itself and that no frame is a table at two depths. Under it each of
the four table pointers of `map_page` reaches the table that the walk of the address goes through
(`Reaches`), also while an entry above it has just been written: this is how a new table is cleaned
through its own place in the tree.

Making a table is then a `Link` of the tree, and writing the entry of the page a `SetLeaf`, from
which the walks of all other addresses follow.
-/

namespace Potatos

open Lib

namespace PhysMem

/-- The children of a table, without the slot of `p4` that maps it to itself. -/
def tree (m : PhysMem) (p4 : ℕ) (f : ℕ) (i : Fin 512) : Option ℕ :=
  if f = p4 ∧ i = 510 then none else m.next f i

/-- Slot 510 maps `p4` to itself, and no frame is a table at two depths. -/
structure WellPaged (m : PhysMem) (p4 : ℕ) : Prop where
  self : m.next p4 510 = some p4
  layered : Layered (m.tree p4) p4 3

/-- The frame is a page table. -/
def IsTable (m : PhysMem) (p4 f : ℕ) : Prop := ∃ n ≤ 3, At (m.tree p4) p4 n f

/-- The address of a frame that can become a page table. -/
def FreshFrame (m : PhysMem) (p4 address : ℕ) : Prop :=
  ∃ g, address = g * 4096 ∧ 0 < g ∧ g < 2^40 ∧ ¬ m.IsTable p4 g

variable {m m' : PhysMem} {p4 f g v n : ℕ} {i j : Fin 512} {p : List (Fin 512)}

@[simp] theorem set_of_ne (h : f ≠ g) : m.set g i v f = m f := Function.update_of_ne h ..

@[simp] theorem set_self : m.set f i v f i = v := by
  rw [set, Function.update_self, Function.update_self]

theorem set_other (h : j ≠ i) : m.set f i v f j = m f j := by
  rw [set, Function.update_self, Function.update_of_ne h]

theorem set_eq_or (x : ℕ) (j : Fin 512) : m.set f i v x j = v ∨ m.set f i v x j = m x j := by
  by_cases hx : x = f
  · subst hx
    by_cases hj : j = i
    · exact Or.inl (hj ▸ set_self)
    · exact Or.inr (set_other hj)
  · exact Or.inr (congrFun (set_of_ne hx) j)

theorem tree_of_ne (h : f ≠ p4 ∨ i ≠ 510) : m.tree p4 f i = m.next f i := by
  rw [tree, if_neg (fun hs => h.elim (fun h => h hs.1) (fun h => h hs.2))]

theorem next_eq_some :
    m.next f i = some g ↔ present (m f i) = true ∧ frameOf (m f i) = g := by
  rw [next, Option.ite_none_right_eq_some, Option.some.injEq]

theorem next_eq_none : m.next f i = none ↔ present (m f i) ≠ true := by
  rw [next, ite_eq_right_iff]
  exact ⟨fun h hp => Option.some_ne_none _ (h hp), fun h hp => absurd hp h⟩

/-- The step of a walk depends on the entry that it reads. -/
theorem next_congr (h : m' f i = m f i) : m'.next f i = m.next f i := by
  rw [next, next, h]

/-- The entry that links a table. -/
theorem next_link (hg : g < 2^40) (h : m f i = g * 4096 ||| PT_RW_BIT ||| PT_PRESENT_BIT) :
    m.next f i = some g := by
  have hor : g * 4096 ||| PT_RW_BIT ||| PT_PRESENT_BIT = g * 4096 + 3 := by
    rw [Nat.or_assoc]
    exact mul_or_of_lt (k := 12) (by decide)
  have hbit : present (g * 4096 + 3) = true := by
    rw [present, show PT_PRESENT_BIT = 1 from rfl, Nat.and_one_is_mod]
    have : (g * 4096 + 3) % 2 = 1 := by omega
    rw [this]
    rfl
  rw [next, h, hor, if_pos hbit, frameOf]
  congr 1
  omega

/-! ## Walks in the tree -/

theorem WellPaged.at_root (hw : m.WellPaged p4) (hn : n ≤ 3) (h : At (m.tree p4) p4 n p4) :
    n = 0 := hw.layered n 0 p4 hn (Nat.zero_le _) h (at_zero.mpr rfl)

/-- A walk of the tree that does not start with the self-map stays away from it. -/
theorem WellPaged.slots_ne (hw : m.WellPaged p4) (hp : p.head? ≠ some 510) (hlen : p.length ≤ 4)
    {z : ℕ × Fin 512} (hz : z ∈ slots (m.tree p4) p4 p) : ¬ (z.1 = p4 ∧ z.2 = 510) := by
  rintro ⟨h1, h2⟩
  rcases mem_slots (at_zero.mpr rfl) hz with ⟨p', rfl, -⟩ | ⟨n, hn, hlt, hat⟩
  · exact hp (by rw [h2]; rfl)
  · have := hw.at_root (by omega) (h1 ▸ hat)
    omega

/-- Such a walk is the same in the memory, and in every memory with the same entries on it. -/
theorem WellPaged.descend_eq (hw : m.WellPaged p4) (hp : p.head? ≠ some 510) (hlen : p.length ≤ 4)
    (hsame : ∀ z ∈ slots (m.tree p4) p4 p, m' z.1 z.2 = m z.1 z.2) :
    descend m'.next p4 p = descend (m.tree p4) p4 p := by
  apply descend_of_slots
  intro z hz
  have hne := hw.slots_ne hp hlen hz
  rw [next_congr (hsame z hz), tree, if_neg hne]

/-- The address is translated by the tree when its first index is not the self-map's. -/
theorem WellPaged.walk_eq (hw : m.WellPaged p4) {a : ℕ} (ha : field a 39 ≠ 510) :
    m.walk p4 a = descend (m.tree p4) p4 [field a 39, field a 30, field a 21, field a 12] :=
  hw.descend_eq (fun h => ha (Option.some.inj h)) (by simp) (fun _ _ => rfl)

/-- A store into a frame that is no table is not noticed by the walks. -/
theorem WellPaged.walk_set (hw : m.WellPaged p4) (hf : ¬ m.IsTable p4 f) {a : ℕ}
    (ha : field a 39 ≠ 510) : (m.set f i v).walk p4 a = m.walk p4 a := by
  have hpath : descend (m.set f i v).next p4 [field a 39, field a 30, field a 21, field a 12] =
      descend (m.tree p4) p4 [field a 39, field a 30, field a 21, field a 12] := by
    refine hw.descend_eq (fun h => ha (Option.some.inj h)) (by simp) (fun z hz => ?_)
    obtain ⟨n, hn, hat⟩ := mem_slots_root hz
    simp only [List.length_cons, List.length_nil] at hn
    have hne : z.1 ≠ f := fun h => hf ⟨n, by omega, h ▸ hat⟩
    exact congrFun (set_of_ne hne) z.2
  exact hpath.trans (hw.walk_eq ha).symm

theorem WellPaged.leafSlot_eq (hw : m.WellPaged p4) {a : ℕ} (ha : field a 39 ≠ 510) :
    m.leafSlot p4 a = (descend (m.tree p4) p4 [field a 39, field a 30, field a 21]).map
      (fun f => (f, field a 12)) := by
  have hpath := hw.descend_eq (p := [field a 39, field a 30, field a 21])
    (fun h => ha (Option.some.inj h)) (by simp) (fun _ _ => rfl)
  rw [leafSlot, hpath]

/-- The last step of a walk, from the last-level table. -/
theorem WellPaged.walk_of_table (hw : m.WellPaged p4) {a : ℕ} (ha : field a 39 ≠ 510)
    (hf : descend (m.tree p4) p4 [field a 39, field a 30, field a 21] = some f) :
    m.walk p4 a = m.next f (field a 12) := by
  have hne : f ≠ p4 := by
    rintro rfl
    have := hw.at_root (le_refl 3) ⟨_, rfl, hf⟩
    omega
  have hpath : [field a 39, field a 30, field a 21, field a 12] =
      [field a 39, field a 30, field a 21] ++ [field a 12] := rfl
  rw [hw.walk_eq ha, hpath, descend_snoc, hf]
  exact tree_of_ne (Or.inl hne)

/-- A walk that succeeds goes through a last-level table. -/
theorem WellPaged.table_of_walk (hw : m.WellPaged p4) {a : ℕ} (ha : field a 39 ≠ 510)
    (hwalk : m.walk p4 a ≠ none) :
    descend (m.tree p4) p4 [field a 39, field a 30, field a 21] ≠ none := by
  rw [hw.walk_eq ha] at hwalk
  exact descend_of_append (q := [field a 12]) hwalk

/-! ## The table pointers -/

/-- In every memory with the self-map, the pointer reaches the table at the end of the path. -/
def Reaches (p4 table : ℕ) (path : List (Fin 512)) : Prop :=
  ∀ m : PhysMem, m.next p4 510 = some p4 → ∀ e : Fin 512,
    m.walk p4 (table + 8 * e) = descend m.next p4 path ∧ field (table + 8 * e) 3 = e

/-- The pointer whose fields are `a`, `b`, `c`, `d` reaches the table at the end of that path. -/
theorem reaches_fields (a b c d : Fin 512) :
    Reaches p4 (SIGN_EXTENSION ||| ENTRIES_TO_ADDRESS a b c d) [a, b, c, d] := by
  intro m _ e
  obtain ⟨ha, hb, hc, hd, he⟩ := field_tableAddress a b c d e
  refine ⟨?_, he⟩
  rw [walk, ha, hb, hc, hd]

/-- A first step through the self-map may be left out. -/
theorem Reaches.tail {table : ℕ} {path : List (Fin 512)} (h : Reaches p4 table (510 :: path)) :
    Reaches p4 table path := by
  intro m hself e
  obtain ⟨hw, he⟩ := h m hself e
  refine ⟨?_, he⟩
  rw [hw, descend_step hself]

theorem reaches_pml4 : Reaches p4 pml4Table [] :=
  (reaches_fields 510 510 510 510).tail.tail.tail.tail

theorem reaches_pdpr (a : Fin 512) : Reaches p4 (pdprTable a) [a] :=
  (reaches_fields 510 510 510 a).tail.tail.tail

theorem reaches_pd (a b : Fin 512) : Reaches p4 (pdTable a b) [a, b] :=
  (reaches_fields 510 510 a b).tail.tail

theorem reaches_pt (a b c : Fin 512) : Reaches p4 (ptTable a b c) [a, b, c] :=
  (reaches_fields 510 a b c).tail

/-- The load of an entry of a table. -/
theorem Reaches.load {table : ℕ} {path : List (Fin 512)} (h : Reaches p4 table path)
    (hself : m.next p4 510 = some p4) (hf : descend m.next p4 path = some f) (e : Fin 512) :
    m.load p4 (table + 8 * e) = some (m f e) := by
  obtain ⟨hw, he⟩ := h m hself e
  rw [PhysMem.load, hw, hf, he]
  rfl

/-- The store of an entry of a table. -/
theorem Reaches.store {table : ℕ} {path : List (Fin 512)} (h : Reaches p4 table path)
    (hself : m.next p4 510 = some p4) (hf : descend m.next p4 path = some f) (e : Fin 512) :
    m.store p4 (table + 8 * e) v = some (m.set f e v) := by
  obtain ⟨hw, he⟩ := h m hself e
  rw [PhysMem.store, hw, hf, he]
  rfl

/-! ## Cleaning a new table -/

/-- The first `n` entries of a frame cleared. -/
def clearUpTo (m : PhysMem) (g n : ℕ) : PhysMem :=
  Function.update m g (fun i => if i.val < n then 0 else m g i)

theorem clearUpTo_of_ne (h : f ≠ g) : m.clearUpTo g n f = m f := Function.update_of_ne h ..

theorem clearUpTo_zero : m.clearUpTo g 0 = m := by
  unfold clearUpTo
  simp

theorem clearUpTo_succ (hn : n < 512) :
    (m.clearUpTo g n).set g ⟨n, hn⟩ 0 = m.clearUpTo g (n + 1) := by
  funext x k
  by_cases hx : x = g
  · subst hx
    by_cases hk : k = ⟨n, hn⟩
    · subst hk
      rw [set_self, clearUpTo, Function.update_self, if_pos (Nat.lt_succ_self n)]
    · have hne : k.val ≠ n := fun h => hk (Fin.ext h)
      rw [set_other hk, clearUpTo, clearUpTo, Function.update_self, Function.update_self]
      by_cases hlt : k.val < n
      · rw [if_pos hlt, if_pos (by omega)]
      · rw [if_neg hlt, if_neg (by omega)]
  · rw [set_of_ne hx, clearUpTo_of_ne hx, clearUpTo_of_ne hx]

/-- While a new table is cleaned, only its own entries and the one that links it have changed. -/
theorem clearUpTo_set {v n : ℕ} {i j : Fin 512} {x : ℕ} (hg : x ≠ g) (hi : ¬ (x = f ∧ j = i)) :
    ((m.set f i v).clearUpTo g n) x j = m x j := by
  rw [clearUpTo_of_ne hg]
  by_cases hx : x = f
  · subst hx
    exact set_other (fun hj => hi ⟨rfl, hj⟩)
  · rw [set_of_ne hx]

/-- Cleaning a table whose pointer keeps reaching it while its own entries change. -/
theorem cleanNewTable_eq {table : ℕ} {path : List (Fin 512)} (h : Reaches p4 table path)
    (hself : ∀ n, (m.clearUpTo g n).next p4 510 = some p4)
    (hg : ∀ n, descend (m.clearUpTo g n).next p4 path = some g) :
    cleanNewTable p4 m table = some (m.clearUpTo g 512) := by
  have hloop : ∀ n ≤ 512, (List.range n).foldlM
      (fun m i => m.store p4 (table + 8 * i) 0) m = some (m.clearUpTo g n) := by
    intro n
    induction n with
    | zero => intro _; rw [clearUpTo_zero]; rfl
    | succ n ih =>
      intro hn
      have hstore := h.store (v := 0) (hself n) (hg n) ⟨n, hn⟩
      rw [clearUpTo_succ hn] at hstore
      rw [List.range_succ, List.foldlM_append, ih (by omega), Option.bind_eq_bind, Option.bind_some,
        List.foldlM_cons, hstore]
      rfl
  exact hloop 512 (le_refl 512)

end PhysMem

/-! ## Making a table -/

section Code

variable {α : Type} (allocatePhysicalPage : α → ℕ × α) (p4_table : ℕ)

/-- One table made: the frame that the allocator returned, empty, under a free slot. -/
structure MakeTable (s s' : Paged α) (k f : ℕ) (i : Fin 512) (g : ℕ) : Prop where
  link : Link (s.mem.tree p4_table) (s'.mem.tree p4_table) p4_table 3 k f i g
  frame : allocatePhysicalPage s.frames = (g * 4096, s'.frames)
  pos : 0 < g
  lt : g < 2^40
  self : s'.mem.next p4_table 510 = some p4_table
  other : ∀ x, x ≠ f → x ≠ g → s'.mem x = s.mem x

/-- The frame that `ensureTable` asks for, when it asks for one, can become a table. -/
def FreshAlloc (s : Paged α) (table entry : ℕ) : Prop :=
  ∀ value, s.mem.load p4_table (table + 8 * entry) = some value → present value = false →
    s.mem.FreshFrame p4_table (allocatePhysicalPage s.frames).1

variable {allocatePhysicalPage p4_table} {s s' : Paged α} {table below f k : ℕ} {i : Fin 512}
  {p : List (Fin 512)}

/-- `map_page` by the fields of the address. -/
theorem mapPage_eq {virtual_address physical_address : ℕ} {flags : BitVec 8} :
    mapPage allocatePhysicalPage p4_table s virtual_address physical_address flags = (do
      let a := field virtual_address 39
      let b := field virtual_address 30
      let c := field virtual_address 21
      let s ← ensureTable allocatePhysicalPage p4_table s pml4Table a (pdprTable a)
      let s ← ensureTable allocatePhysicalPage p4_table s (pdprTable a) b (pdTable a b)
      let s ← ensureTable allocatePhysicalPage p4_table s (pdTable a b) c (ptTable a b c)
      setEntry p4_table s (ptTable a b c) (field virtual_address 12)
        (alignToPage physical_address ||| flags.toNat)) := by
  obtain ⟨ha, hb, hc, hd⟩ := entries_alignToPage virtual_address
  simp only [mapPage, ha, hb, hc, hd]

theorem MakeTable.wellPaged {g : ℕ}
    (h : MakeTable allocatePhysicalPage p4_table s s' k f i g) (hw : s.mem.WellPaged p4_table) :
    s'.mem.WellPaged p4_table :=
  ⟨h.self, h.link.layered hw.layered⟩

/-- A path that does not start through the self-map. -/
theorem head_ne (hi : i ≠ 510) (q : List (Fin 512)) : (i :: q).head? ≠ some 510 :=
  fun h => hi (Option.some.inj h)

/-- A part of a path that does not start through the self-map does not either. -/
theorem head_ne_of_append {q : List (Fin 512)} (h : (p ++ q).head? ≠ some 510) :
    p.head? ≠ some 510 := by
  intro hp
  apply h
  rw [List.head?_append, hp]
  rfl

/-- The walk to a table above the last is the hardware's in every memory with the same entries on
it, and its next step is not through the self-map. -/
theorem path_next {m : PhysMem} (hw : m.WellPaged p4_table) (hk : p.length < 3)
    (hi : (p ++ [i]).head? ≠ some 510) (hf : descend (m.tree p4_table) p4_table p = some f) :
    (∀ m' : PhysMem, (∀ z ∈ slots (m.tree p4_table) p4_table p, m' z.1 z.2 = m z.1 z.2) →
      descend m'.next p4_table p = some f) ∧ m.tree p4_table f i = m.next f i ∧
      ¬ (p4_table = f ∧ (510 : Fin 512) = i) := by
  have hhead : p.head? ≠ some 510 := head_ne_of_append hi
  have hslot : ¬ (p4_table = f ∧ (510 : Fin 512) = i) := by
    rintro ⟨rfl, rfl⟩
    have hzero := hw.at_root (by omega) ⟨p, rfl, hf⟩
    rw [List.length_eq_zero_iff.mp hzero] at hi
    exact hi rfl
  refine ⟨fun m' hsame => (hw.descend_eq hhead (by omega) hsame).trans hf, ?_, hslot⟩
  rw [PhysMem.tree, if_neg (fun h => hslot ⟨h.1.symm, h.2.symm⟩)]

/-- While a table below `f` is cleaned, the walk to `f` stays as it is, if no table before it on the
walk is the one that is cleaned. -/
theorem path_while_cleaned {m : PhysMem} (hw : m.WellPaged p4_table) (hk : p.length < 3)
    (hi : (p ++ [i]).head? ≠ some 510) (hf : descend (m.tree p4_table) p4_table p = some f)
    {g : ℕ} (hbefore : ∀ d < p.length, ¬ At (m.tree p4_table) p4_table d g) (hpg : p4_table ≠ g)
    (v n : ℕ) :
    ((m.set f i v).clearUpTo g n).next p4_table 510 = some p4_table ∧
      descend ((m.set f i v).clearUpTo g n).next p4_table p = some f := by
  obtain ⟨hwalk, -, hslot⟩ := path_next hw hk hi hf
  have hat : At (m.tree p4_table) p4_table p.length f := ⟨p, rfl, hf⟩
  refine ⟨?_, hwalk _ (fun z hz => ?_)⟩
  · rw [PhysMem.next_congr (PhysMem.clearUpTo_set hpg hslot)]
    exact hw.self
  · obtain ⟨d, hd, hz'⟩ := mem_slots_root hz
    refine PhysMem.clearUpTo_set (fun h => hbefore d hd (h ▸ hz')) (fun h => ?_)
    -- a table above `f` is not at the level of `f`
    have := hw.layered d p.length f (by omega) (by omega) (h.1 ▸ hz') hat
    omega

/-- A table made in a frame that is none: the entry links it, it is empty, and the other frames are
as they were. -/
theorem ensureTable_make (hw : s.mem.WellPaged p4_table)
    (htable : PhysMem.Reaches p4_table table p)
    (hbelow : PhysMem.Reaches p4_table below (p ++ [i])) (hk : p.length < 3)
    (hi : (p ++ [i]).head? ≠ some 510)
    (hf : descend (s.mem.tree p4_table) p4_table p = some f) (hp : present (s.mem f i) ≠ true)
    {g : ℕ} {frames : α} (halloc : allocatePhysicalPage s.frames = (g * 4096, frames))
    (hlt : g < 2^40) (hnot : ¬ s.mem.IsTable p4_table g) :
    ∃ m : PhysMem, ensureTable allocatePhysicalPage p4_table s table i below = some ⟨m, frames⟩ ∧
      Link (s.mem.tree p4_table) (m.tree p4_table) p4_table 3 p.length f i g ∧
      m.next p4_table 510 = some p4_table ∧
      m f i = g * 4096 ||| PT_RW_BIT ||| PT_PRESENT_BIT ∧
      ∀ x, x ≠ f → x ≠ g → m x = s.mem x := by
  obtain ⟨hwalk, htree, hslot⟩ := path_next hw hk hi hf
  have hnext := hwalk s.mem (fun _ _ => rfl)
  have hat : At (s.mem.tree p4_table) p4_table p.length f := ⟨p, rfl, hf⟩
  have hgtable : ∀ n ≤ 3, ¬ At (s.mem.tree p4_table) p4_table n g := fun n hn h => hnot ⟨n, hn, h⟩
  have hfg : f ≠ g := fun h => hgtable _ (by omega) (h ▸ hat)
  have hpg : p4_table ≠ g := fun h => hgtable 0 (by omega) (at_zero.mpr h.symm)
  have hload := htable.load hw.self hnext i
  generalize hm : s.mem.set f i (g * 4096 ||| PT_RW_BIT ||| PT_PRESENT_BIT) = m
  have hstore : s.mem.store p4_table (table + 8 * i)
      (g * 4096 ||| PT_RW_BIT ||| PT_PRESENT_BIT) = some m := hm ▸ htable.store hw.self hnext i
  -- what the memory is while the new table is cleaned
  have hentry : ∀ n, (m.clearUpTo g n) f i = g * 4096 ||| PT_RW_BIT ||| PT_PRESENT_BIT := by
    intro n
    rw [PhysMem.clearUpTo_of_ne hfg, ← hm, PhysMem.set_self]
  have hother : ∀ n x j, x ≠ g → ¬ (x = f ∧ j = i) → (m.clearUpTo g n) x j = s.mem x j :=
    fun n x j hxg hxf => hm ▸ PhysMem.clearUpTo_set hxg hxf
  have hpath : ∀ n, (m.clearUpTo g n).next p4_table 510 = some p4_table ∧
      descend (m.clearUpTo g n).next p4_table p = some f :=
    fun n => hm ▸ path_while_cleaned hw hk hi hf (fun d hd => hgtable d (by omega)) hpg _ n
  have hclean : cleanNewTable p4_table m below = some (m.clearUpTo g 512) := by
    refine PhysMem.cleanNewTable_eq hbelow (fun n => (hpath n).1) (fun n => ?_)
    rw [descend_snoc, (hpath n).2]
    exact PhysMem.next_link hlt (hentry n)
  refine ⟨m.clearUpTo g 512, ?_, ⟨hk, hat, ?_, ?_, hgtable, ?_, ?_⟩, (hpath 512).1, hentry 512, ?_⟩
  · rw [ensureTable, hload, Option.bind_eq_bind, Option.bind_some, if_neg hp, halloc]
    dsimp only
    rw [hstore, Option.bind_eq_bind, Option.bind_some, hclean]
    rfl
  · exact htree.trans (PhysMem.next_eq_none.mpr hp)
  · rw [PhysMem.tree, if_neg (fun h => hslot ⟨h.1.symm, h.2.symm⟩)]
    exact PhysMem.next_link hlt (hentry 512)
  · intro j
    have hzero : (m.clearUpTo g 512) g j = 0 := by
      rw [PhysMem.clearUpTo, Function.update_self, if_pos j.isLt]
    show (m.clearUpTo g 512).tree p4_table g j = none
    rw [PhysMem.tree, if_neg (fun h => hpg h.1.symm), PhysMem.next, hzero]
    rfl
  · intro x j hxg hxf
    rw [PhysMem.tree, PhysMem.tree, PhysMem.next_congr (hother 512 x j hxg hxf)]
  · intro x hxf hxg
    funext j
    exact hother 512 x j hxg (fun h => hxf h.1)

/-- A block of `map_page` that makes a table: it does not fault, and either there was a table under
the entry or a new one is made there. -/
theorem ensureTable_spec (hw : s.mem.WellPaged p4_table)
    (htable : PhysMem.Reaches p4_table table p)
    (hbelow : PhysMem.Reaches p4_table below (p ++ [i])) (hk : p.length < 3)
    (hi : (p ++ [i]).head? ≠ some 510)
    (hf : descend (s.mem.tree p4_table) p4_table p = some f)
    (hfresh : FreshAlloc allocatePhysicalPage p4_table s table i) :
    ∃ s', ensureTable allocatePhysicalPage p4_table s table i below = some s' ∧
      ((s' = s ∧ ∃ y, s.mem.tree p4_table f i = some y) ∨
        ∃ g, MakeTable allocatePhysicalPage p4_table s s' p.length f i g ∧
          s'.mem f i = g * 4096 ||| PT_RW_BIT ||| PT_PRESENT_BIT) := by
  obtain ⟨hwalk, htree, -⟩ := path_next hw hk hi hf
  have hload := htable.load hw.self (hwalk s.mem (fun _ _ => rfl)) i
  by_cases hp : present (s.mem f i) = true
  · -- The present bit is set, and nothing is made.
    refine ⟨s, ?_, Or.inl ⟨rfl, frameOf (s.mem f i), ?_⟩⟩
    · rw [ensureTable, hload, Option.bind_eq_bind, Option.bind_some, if_pos hp]
    · exact htree.trans (PhysMem.next_eq_some.mpr ⟨hp, rfl⟩)
  · -- The entry is free, so the allocator is called.
    obtain ⟨g, haddr, hpos, hlt, hnot⟩ := hfresh _ hload (by simpa using hp)
    obtain ⟨frames, halloc⟩ : ∃ frames, allocatePhysicalPage s.frames = (g * 4096, frames) :=
      ⟨_, Prod.ext haddr rfl⟩
    obtain ⟨m, hcall, hlink, hself, hentry, hother⟩ :=
      ensureTable_make hw htable hbelow hk hi hf hp halloc hlt hnot
    exact ⟨⟨m, frames⟩, hcall, Or.inr ⟨g, ⟨hlink, halloc, hpos, hlt, hself, hother⟩, hentry⟩⟩

/-- Some table made. -/
def Made (allocatePhysicalPage : α → ℕ × α) (p4_table : ℕ) (s s' : Paged α) : Prop :=
  ∃ k f i g, MakeTable allocatePhysicalPage p4_table s s' k f i g

theorem Made.wellPaged (h : Made allocatePhysicalPage p4_table s s')
    (hw : s.mem.WellPaged p4_table) : s'.mem.WellPaged p4_table := by
  obtain ⟨k, f, i, g, h⟩ := h
  exact h.wellPaged hw

theorem Made.frames (h : Made allocatePhysicalPage p4_table s s') :
    (allocatePhysicalPage s.frames).2 = s'.frames := by
  obtain ⟨_, _, _, _, h⟩ := h
  exact congrArg Prod.snd h.frame

/-- A table made under a free slot is not noticed by the walks of addresses. -/
theorem Made.walk_eq (h : Made allocatePhysicalPage p4_table s s') (hw : s.mem.WellPaged p4_table)
    {a : ℕ} (ha : field a 39 ≠ 510) : s'.mem.walk p4_table a = s.mem.walk p4_table a := by
  have hw' := h.wellPaged hw
  obtain ⟨k, f, i, g, h⟩ := h
  rw [hw.walk_eq ha, hw'.walk_eq ha]
  exact h.link.descend_full hw.layered (at_zero.mpr rfl) rfl

/-- The tables of a memory with a new table. -/
theorem isTable_of_link {m m' : PhysMem} {g : ℕ} (hw : m.WellPaged p4_table)
    (h : Link (m.tree p4_table) (m'.tree p4_table) p4_table 3 k f i g) (x : ℕ) :
    m'.IsTable p4_table x ↔ m.IsTable p4_table x ∨ x = g := by
  have hdepth := h.depth
  constructor
  · rintro ⟨n, hn, hx⟩
    rcases (h.at_iff hw.layered hn).mp hx with hx | ⟨-, rfl⟩
    · exact Or.inl ⟨n, hn, hx⟩
    · exact Or.inr rfl
  · rintro (⟨n, hn, hx⟩ | rfl)
    · exact ⟨n, hn, (h.at_iff hw.layered hn).mpr (Or.inl hx)⟩
    · exact ⟨k + 1, hdepth, (h.at_iff hw.layered hdepth).mpr (Or.inr ⟨rfl, rfl⟩)⟩

/-- The tables afterwards are the old ones and the frame that was handed out. -/
theorem Made.isTable (h : Made allocatePhysicalPage p4_table s s')
    (hw : s.mem.WellPaged p4_table) :
    ∃ g, allocatePhysicalPage s.frames = (g * 4096, s'.frames) ∧
      (∀ x, s'.mem.IsTable p4_table x ↔ s.mem.IsTable p4_table x ∨ x = g) ∧
      ∀ x, ¬ s'.mem.IsTable p4_table x → s'.mem x = s.mem x := by
  obtain ⟨k, f, i, g, h⟩ := h
  have hiff := isTable_of_link hw h.link
  refine ⟨g, h.frame, hiff, fun x hx => h.other x (fun hxf => hx ?_) (fun hxg => hx ?_)⟩
  · exact (hiff x).mpr (Or.inl ⟨k, le_of_lt h.link.depth, hxf ▸ h.link.table⟩)
  · exact (hiff x).mpr (Or.inr hxg)

theorem made_wellPaged (h : Relation.ReflTransGen (Made allocatePhysicalPage p4_table) s s')
    (hw : s.mem.WellPaged p4_table) : s'.mem.WellPaged p4_table := by
  induction h with
  | refl => exact hw
  | tail _ h ih => exact h.wellPaged ih

theorem made_walk_eq (h : Relation.ReflTransGen (Made allocatePhysicalPage p4_table) s s')
    (hw : s.mem.WellPaged p4_table) {a : ℕ} (ha : field a 39 ≠ 510) :
    s'.mem.walk p4_table a = s.mem.walk p4_table a := by
  induction h with
  | refl => rfl
  | tail hs h ih => exact (h.walk_eq (made_wellPaged hs hw) ha).trans ih

/-- A block of `map_page` makes at most one table, and none where the walk goes on. -/
theorem ensureTable_step (hw : s.mem.WellPaged p4_table)
    (htable : PhysMem.Reaches p4_table table p)
    (hbelow : PhysMem.Reaches p4_table below (p ++ [i])) (hk : p.length < 3)
    (hi : (p ++ [i]).head? ≠ some 510)
    (hf : descend (s.mem.tree p4_table) p4_table p = some f)
    (hfresh : FreshAlloc allocatePhysicalPage p4_table s table i) :
    ∃ s' y, ensureTable allocatePhysicalPage p4_table s table i below = some s' ∧
      s'.mem.WellPaged p4_table ∧
      descend (s'.mem.tree p4_table) p4_table (p ++ [i]) = some y ∧
      Relation.ReflGen (Made allocatePhysicalPage p4_table) s s' ∧
      (descend (s.mem.tree p4_table) p4_table (p ++ [i]) ≠ none → s' = s) := by
  obtain ⟨s', hs', ⟨rfl, y, hy⟩ | ⟨g, hmake, -⟩⟩ :=
    ensureTable_spec hw htable hbelow hk hi hf hfresh
  · refine ⟨s', y, hs', hw, ?_, .refl, fun _ => rfl⟩
    rw [descend_snoc, hf]
    exact hy
  · refine ⟨s', g, hs', hmake.wellPaged hw, ?_, .single ⟨_, _, _, _, hmake⟩, fun hne => ?_⟩
    · exact hmake.link.descend_new hw.layered (by omega) hf
    · -- A table is made only where there was none.
      refine absurd ?_ hne
      rw [descend_snoc, hf]
      exact hmake.link.free

/-! ## The entry of the page -/

/-- Writing an entry of a last-level table. -/
theorem setLeaf_set {m : PhysMem} {v : ℕ} (hw : m.WellPaged p4_table)
    (hf : At (m.tree p4_table) p4_table 3 f) :
    SetLeaf (m.tree p4_table) ((m.set f i v).tree p4_table) p4_table 3 f i ∧
      (m.set f i v).WellPaged p4_table := by
  have hleaf : SetLeaf (m.tree p4_table) ((m.set f i v).tree p4_table) p4_table 3 f i := by
    refine ⟨hf, fun x j hs => ?_⟩
    have hentry : (m.set f i v) x j = m x j := by
      by_cases hx : x = f
      · subst hx
        exact PhysMem.set_other (fun hj => hs ⟨rfl, hj⟩)
      · rw [PhysMem.set_of_ne hx]
    rw [PhysMem.tree, PhysMem.tree, PhysMem.next_congr hentry]
  -- The self-map is an entry of another table.
  have hne : p4_table ≠ f := by
    rintro rfl
    have := hw.at_root (le_refl 3) hf
    omega
  refine ⟨hleaf, ?_, hleaf.layered hw.layered⟩
  rw [PhysMem.next_congr (congrFun (PhysMem.set_of_ne hne) _)]
  exact hw.self

/-- The last block of `map_page` does not fault, and writes the entry where it is not present. -/
theorem setEntry_eq {v : ℕ} (hw : s.mem.WellPaged p4_table)
    (htable : PhysMem.Reaches p4_table table p)
    (hnext : descend s.mem.next p4_table p = some f) :
    setEntry p4_table s table i v =
      some (if present (s.mem f i) then s else { s with mem := s.mem.set f i v }) := by
  rw [setEntry, htable.load hw.self hnext i, Option.bind_eq_bind, Option.bind_some]
  by_cases hp : present (s.mem f i) = true
  · rw [if_pos hp, if_pos hp]
  · rw [if_neg hp, if_neg hp, htable.store hw.self hnext i]
    rfl

/-! ## The whole of `map_page` -/

/-- Each frame that the allocator returns during `map_page` of the address can become a table. -/
def FreshAllocs (allocatePhysicalPage : α → ℕ × α) (p4_table : ℕ) (s : Paged α)
    (virtual_address : ℕ) : Prop :=
  let pml4_e := PML4_ENTRY (alignToPage virtual_address)
  let pdpr_e := PDPR_ENTRY (alignToPage virtual_address)
  let pd_e := PD_ENTRY (alignToPage virtual_address)
  let pml4_table := pml4Table
  let pdpr_table := pdprTable pml4_e
  let pd_table := pdTable pml4_e pdpr_e
  FreshAlloc allocatePhysicalPage p4_table s pml4_table pml4_e ∧
    ∀ s₁, ensureTable allocatePhysicalPage p4_table s pml4_table pml4_e pdpr_table = some s₁ →
      FreshAlloc allocatePhysicalPage p4_table s₁ pdpr_table pdpr_e ∧
      ∀ s₂, ensureTable allocatePhysicalPage p4_table s₁ pdpr_table pdpr_e pd_table = some s₂ →
        FreshAlloc allocatePhysicalPage p4_table s₂ pd_table pd_e

/-- The same by the fields of the address. -/
theorem freshAllocs_iff {virtual_address : ℕ} :
    FreshAllocs allocatePhysicalPage p4_table s virtual_address ↔
      let a := field virtual_address 39
      let b := field virtual_address 30
      FreshAlloc allocatePhysicalPage p4_table s pml4Table a ∧
        ∀ s₁, ensureTable allocatePhysicalPage p4_table s pml4Table a (pdprTable a) = some s₁ →
          FreshAlloc allocatePhysicalPage p4_table s₁ (pdprTable a) b ∧
          ∀ s₂, ensureTable allocatePhysicalPage p4_table s₁ (pdprTable a) b (pdTable a b) =
              some s₂ →
            FreshAlloc allocatePhysicalPage p4_table s₂ (pdTable a b)
              (field virtual_address 21) := by
  obtain ⟨ha, hb, hc, -⟩ := entries_alignToPage virtual_address
  simp only [FreshAllocs, ha, hb, hc]

/-- What a block that makes a table does to the allocator. -/
theorem ensureTable_frames {entry : ℕ}
    (h : ensureTable allocatePhysicalPage p4_table s table entry below = some s') :
    ∃ value, s.mem.load p4_table (table + 8 * entry) = some value ∧
      (present value = true → s' = s) ∧
      (present value = false → s'.frames = (allocatePhysicalPage s.frames).2) := by
  obtain ⟨value, hload, h⟩ := Option.bind_eq_some_iff.mp h
  refine ⟨value, hload, fun hp => ?_, fun hp => ?_⟩
  · rw [if_pos hp] at h
    exact (Option.some.inj h).symm
  · rw [if_neg (by rw [hp]; decide)] at h
    obtain ⟨m₁, -, h⟩ := Option.bind_eq_some_iff.mp h
    obtain ⟨m₂, -, h⟩ := Option.bind_eq_some_iff.mp h
    obtain rfl := Option.some.inj h
    rfl

theorem setEntry_frames {entry value : ℕ} (h : setEntry p4_table s table entry value = some s') :
    s'.frames = s.frames := by
  obtain ⟨old, -, h⟩ := Option.bind_eq_some_iff.mp h
  split at h
  · rw [← Option.some.inj h]
  · obtain ⟨m, -, h⟩ := Option.bind_eq_some_iff.mp h
    rw [← Option.some.inj h]

/-- Where the walk goes on, no frame is asked for. -/
theorem freshAlloc_of_some (hw : s.mem.WellPaged p4_table)
    (htable : PhysMem.Reaches p4_table table p)
    (hi : (p ++ [i]).head? ≠ some 510) (hk : p.length < 3)
    (hf : descend (s.mem.tree p4_table) p4_table p = some f)
    (hsome : descend (s.mem.tree p4_table) p4_table (p ++ [i]) ≠ none) :
    FreshAlloc allocatePhysicalPage p4_table s table i := by
  have hlen : (p ++ [i]).length ≤ 4 := by
    rw [List.length_append, List.length_singleton]
    omega
  have hpath := hw.descend_eq hi hlen (fun _ _ => rfl)
  have hhead : p.head? ≠ some 510 := head_ne_of_append hi
  have hup := hw.descend_eq hhead (by omega) (fun _ _ => rfl)
  -- The entry that the code loads is the last step of the walk, so it is present.
  intro value hload hp
  have hvalue := htable.load hw.self (hup.trans hf) i
  obtain rfl := Option.some.inj (hload.symm.trans hvalue)
  rw [← hpath, descend_snoc, hup.trans hf] at hsome
  exact absurd (if_neg (by rw [hp]; decide)) hsome

/-- The first `k` tables of the path are there, at least `n` of them, and `3 - k` good frames are
left for the others. -/
def Budget (p4_table : ℕ) (path : List (Fin 512)) (J : ℕ → Paged α → Prop) (s : Paged α) (n : ℕ) :
    Prop :=
  ∃ k, n ≤ k ∧ k ≤ 3 ∧ descend (s.mem.tree p4_table) p4_table (path.take k) ≠ none ∧ J (3 - k) s

/-- A block of `map_page` within the budget asks for a good frame, and leaves a budget for the
rest. -/
theorem Budget.stage {J : ℕ → Paged α → Prop} {path q : List (Fin 512)}
    (hfresh : ∀ n s, J (n + 1) s → s.mem.FreshFrame p4_table (allocatePhysicalPage s.frames).1)
    (hless : ∀ n s, J (n + 1) s → J n s)
    (hmade : ∀ n s s', s.mem.WellPaged p4_table → J (n + 1) s →
      Made allocatePhysicalPage p4_table s s' → J n s')
    (hB : Budget p4_table path J s p.length) (hsplit : path = p ++ i :: q) (hlen : path.length = 3)
    (hpath : path.head? ≠ some 510) (hw : s.mem.WellPaged p4_table)
    (htable : PhysMem.Reaches p4_table table p) (hbelow : PhysMem.Reaches p4_table below (p ++ [i]))
    (hf : descend (s.mem.tree p4_table) p4_table p = some f) :
    FreshAlloc allocatePhysicalPage p4_table s table i ∧
      ∀ s', ensureTable allocatePhysicalPage p4_table s table i below = some s' →
        s'.mem.WellPaged p4_table ∧ Budget p4_table path J s' (p ++ [i]).length ∧
          ∃ y, descend (s'.mem.tree p4_table) p4_table (p ++ [i]) = some y := by
  obtain ⟨k, hpk, hk, hd, hJ⟩ := hB
  have hplen : p.length < 3 := by
    rw [hsplit, List.length_append, List.length_cons] at hlen
    omega
  have hgroup : path = (p ++ [i]) ++ q := by rw [hsplit, List.append_assoc, List.singleton_append]
  have hhead : (p ++ [i]).head? ≠ some 510 := head_ne_of_append (hgroup ▸ hpath)
  have hone : (p ++ [i]).length = p.length + 1 := by rw [List.length_append, List.length_singleton]
  have htake : path.take (p.length + 1) = p ++ [i] := by
    rw [hgroup, List.take_append_of_le_length (le_of_eq hone.symm),
      List.take_of_length_le (le_of_eq hone)]
  rw [hone]
  rcases Nat.eq_or_lt_of_le hpk with heq | hlt
  · -- This stage may have to make the table, and spends one unit.
    obtain ⟨j, hj⟩ : ∃ j, 3 - k = j + 1 := ⟨2 - k, by omega⟩
    have hj' : 3 - (p.length + 1) = j := by omega
    rw [hj] at hJ
    have hfirst : FreshAlloc allocatePhysicalPage p4_table s table i := fun _ _ _ => hfresh j s hJ
    obtain ⟨t, y, ht, hwt, hy, hgen, -⟩ := ensureTable_step hw htable hbelow hplen hhead hf hfirst
    refine ⟨hfirst, fun s' hs' => ?_⟩
    obtain rfl := Option.some.inj (hs'.symm.trans ht)
    have hJ' : J j s' := by
      cases hgen with
      | refl => exact hless j _ hJ
      | single hm => exact hmade j _ _ hw hJ hm
    refine ⟨hwt, ⟨p.length + 1, le_refl _, by omega, ?_, hj' ▸ hJ'⟩, y, hy⟩
    rw [htake, hy]
    exact Option.some_ne_none y
  · -- the table is there, and the budget is for later ones
    have hnext : descend (s.mem.tree p4_table) p4_table (p ++ [i]) ≠ none := by
      intro hnone
      apply hd
      rw [← List.take_append_drop (p.length + 1) (path.take k), List.take_take,
        Nat.min_eq_left hlt, htake, descend_append, hnone]
      rfl
    have hfirst : FreshAlloc allocatePhysicalPage p4_table s table i :=
      freshAlloc_of_some hw htable hhead hplen hf hnext
    obtain ⟨t, y, ht, hwt, hy, -, hsame⟩ := ensureTable_step hw htable hbelow hplen hhead hf hfirst
    refine ⟨hfirst, fun s' hs' => ?_⟩
    obtain rfl := Option.some.inj (hs'.symm.trans ht)
    obtain rfl := hsame hnext
    exact ⟨hwt, ⟨k, hlt, hk, hd, hJ⟩, y, hy⟩

/-- A state with `n + 1` good frames to hand out leaves one with `n`. When the first `k` tables of
the address are there, `3 - k` are enough for `map_page`. -/
theorem freshAllocs_of_budget {J : ℕ → Paged α → Prop}
    (hfresh : ∀ n s, J (n + 1) s → s.mem.FreshFrame p4_table (allocatePhysicalPage s.frames).1)
    (hless : ∀ n s, J (n + 1) s → J n s)
    (hmade : ∀ n s s', s.mem.WellPaged p4_table → J (n + 1) s →
      Made allocatePhysicalPage p4_table s s' → J n s')
    (hw : s.mem.WellPaged p4_table) {virtual_address k : ℕ}
    (hva : field virtual_address 39 ≠ 510) (hk : k ≤ 3)
    (hpath : descend (s.mem.tree p4_table) p4_table ([field virtual_address 39,
      field virtual_address 30, field virtual_address 21].take k) ≠ none)
    (hJ : J (3 - k) s) :
    FreshAllocs allocatePhysicalPage p4_table s virtual_address ∧
      ∀ physical_address flags s', mapPage allocatePhysicalPage p4_table s virtual_address
        physical_address flags = some s' → ∃ s₃, J 0 s₃ ∧ s₃.frames = s'.frames := by
  simp only [freshAllocs_iff, mapPage_eq]
  generalize field virtual_address 39 = a at *
  generalize field virtual_address 30 = b at *
  generalize field virtual_address 21 = c at *
  have hhead : [a, b, c].head? ≠ some 510 := head_ne hva [b, c]
  have hB : Budget p4_table [a, b, c] J s 0 := ⟨k, Nat.zero_le k, hk, hpath, hJ⟩
  -- The three stages, each on the state that the one before leaves.
  obtain ⟨hfresh1, hnext1⟩ := Budget.stage (p := []) hfresh hless hmade hB rfl rfl hhead hw
    PhysMem.reaches_pml4 (PhysMem.reaches_pdpr a) rfl
  have hsecond : ∀ s₁, ensureTable allocatePhysicalPage p4_table s pml4Table a (pdprTable a) =
      some s₁ → _ := fun s₁ hs₁ =>
    let ⟨hw₁, hB₁, y₁, hy₁⟩ := hnext1 s₁ hs₁
    Budget.stage (p := [a]) hfresh hless hmade hB₁ rfl rfl hhead hw₁ (PhysMem.reaches_pdpr a)
      (PhysMem.reaches_pd a b) hy₁
  have hthird : ∀ s₁, ensureTable allocatePhysicalPage p4_table s pml4Table a (pdprTable a) =
      some s₁ → ∀ s₂, ensureTable allocatePhysicalPage p4_table s₁ (pdprTable a) b (pdTable a b) =
      some s₂ → _ := fun s₁ hs₁ s₂ hs₂ =>
    let ⟨hw₂, hB₂, y₂, hy₂⟩ := (hsecond s₁ hs₁).2 s₂ hs₂
    Budget.stage (p := [a, b]) hfresh hless hmade hB₂ rfl rfl hhead hw₂ (PhysMem.reaches_pd a b)
      (PhysMem.reaches_pt a b c) hy₂
  refine ⟨⟨hfresh1, fun s₁ hs₁ => ⟨(hsecond s₁ hs₁).1, fun s₂ hs₂ => (hthird s₁ hs₁ s₂ hs₂).1⟩⟩,
    fun physical_address flags s' hres => ?_⟩
  -- The call ran through all three, and only writes the entry of the page after them.
  obtain ⟨s₁, hs₁, hres⟩ := Option.bind_eq_some_iff.mp hres
  obtain ⟨s₂, hs₂, hres⟩ := Option.bind_eq_some_iff.mp hres
  obtain ⟨s₃, hs₃, hres⟩ := Option.bind_eq_some_iff.mp hres
  obtain ⟨-, ⟨k, hk3, hk3', -, hJ₃⟩, -⟩ := (hthird s₁ hs₁ s₂ hs₂).2 s₃ hs₃
  have hzero : 3 - k = 0 := Nat.sub_eq_zero_of_le hk3
  exact ⟨s₃, hzero ▸ hJ₃, (setEntry_frames hres).symm⟩

/-- When the tables of the address are there, no frame is asked for. -/
theorem freshAllocs_of_tables (hw : s.mem.WellPaged p4_table) {virtual_address : ℕ}
    (hva : field virtual_address 39 ≠ 510)
    (htables : descend (s.mem.tree p4_table) p4_table
      [field virtual_address 39, field virtual_address 30, field virtual_address 21] ≠ none) :
    FreshAllocs allocatePhysicalPage p4_table s virtual_address :=
  (freshAllocs_of_budget (J := fun n _ => n = 0) (fun n _ hn => absurd hn (Nat.succ_ne_zero n))
    (fun n _ hn => absurd hn (Nat.succ_ne_zero n))
    (fun n _ _ _ hn => absurd hn (Nat.succ_ne_zero n)) hw hva (le_refl 3) htables rfl).1

/-- During `map_page` the allocator is called some number of times. -/
theorem mapPage_frames {virtual_address physical_address : ℕ} {flags : BitVec 8}
    (h : mapPage allocatePhysicalPage p4_table s virtual_address physical_address flags = some s') :
    Relation.ReflTransGen (fun a b => (allocatePhysicalPage a).2 = b) s.frames s'.frames := by
  have hstage : ∀ {s s' : Paged α} {table entry below : ℕ},
      ensureTable allocatePhysicalPage p4_table s table entry below = some s' →
      Relation.ReflTransGen (fun a b => (allocatePhysicalPage a).2 = b) s.frames s'.frames := by
    intro s s' table entry below hs
    obtain ⟨value, -, hsame, hnew⟩ := ensureTable_frames hs
    by_cases hp : present value = true
    · rw [hsame hp]
    · exact .single (hnew (by simpa using hp)).symm
  obtain ⟨s₁, hs₁, h⟩ := Option.bind_eq_some_iff.mp h
  obtain ⟨s₂, hs₂, h⟩ := Option.bind_eq_some_iff.mp h
  obtain ⟨s₃, hs₃, h⟩ := Option.bind_eq_some_iff.mp h
  rw [setEntry_frames h]
  exact ((hstage hs₁).trans (hstage hs₂)).trans (hstage hs₃)

/-- When a call returned and its allocator is not in a bad state, then it never was during the call,
and what it handed out is good if it is good in every state that is not bad. -/
theorem freshAllocs_of_result {J : Paged α → Prop} {B : α → Prop}
    (hbad : ∀ a, B a → B (allocatePhysicalPage a).2)
    (hfresh : ∀ s, J s → ¬ B (allocatePhysicalPage s.frames).2 →
      s.mem.FreshFrame p4_table (allocatePhysicalPage s.frames).1)
    (hmade : ∀ s s', J s → Made allocatePhysicalPage p4_table s s' → ¬ B s'.frames → J s')
    (hpaged : ∀ s, J s → s.mem.WellPaged p4_table) (hJ : J s)
    {virtual_address physical_address : ℕ} {flags : BitVec 8} (hva : field virtual_address 39 ≠ 510)
    (hres : mapPage allocatePhysicalPage p4_table s virtual_address physical_address flags =
      some s') (hgood : ¬ B s'.frames) :
    FreshAllocs allocatePhysicalPage p4_table s virtual_address := by
  rw [mapPage_eq] at hres
  rw [freshAllocs_iff]
  dsimp only at hres ⊢
  obtain ⟨s₁, hs₁, hres⟩ := Option.bind_eq_some_iff.mp hres
  obtain ⟨s₂, hs₂, hres⟩ := Option.bind_eq_some_iff.mp hres
  obtain ⟨s₃, hs₃, hres⟩ := Option.bind_eq_some_iff.mp hres
  rw [setEntry_frames hres] at hgood
  -- backwards: a block that ends in a state that is not bad started in one
  have hback : ∀ {s s' : Paged α} {table entry below : ℕ}, ¬ B s'.frames →
      ensureTable allocatePhysicalPage p4_table s table entry below = some s' → ¬ B s.frames := by
    intro s s' table entry below hB hs
    obtain ⟨value, -, hsame, hnew⟩ := ensureTable_frames hs
    by_cases hp : present value = true
    · exact hsame hp ▸ hB
    · rw [hnew (by simpa using hp)] at hB
      exact fun h => hB (hbad _ h)
  -- forwards: the block asked for a good frame, and keeps the invariant
  have hstage : ∀ {s s' : Paged α} {table entry below : ℕ}, J s → ¬ B s'.frames →
      ensureTable allocatePhysicalPage p4_table s table entry below = some s' →
      FreshAlloc allocatePhysicalPage p4_table s table entry := by
    intro s s' table entry below hJ hB hs value' hload' hp'
    obtain ⟨value, hload, -, hnew⟩ := ensureTable_frames hs
    obtain rfl := Option.some.inj (hload.symm.trans hload')
    rw [hnew hp'] at hB
    exact hfresh s hJ hB
  have hkeep : ∀ {s s' : Paged α}, J s → ¬ B s'.frames →
      Relation.ReflGen (Made allocatePhysicalPage p4_table) s s' → J s' := by
    intro s s' hJ hB hgen
    cases hgen with
    | refl => exact hJ
    | single hm => exact hmade s s' hJ hm hB
  have hB₂ := hback hgood hs₃
  have hB₁ := hback hB₂ hs₂
  have hfresh1 := hstage hJ hB₁ hs₁
  obtain ⟨t₁, y₁, ht₁, hw₁, hy₁, hgen₁, -⟩ := ensureTable_step (p := []) (hpaged s hJ)
    PhysMem.reaches_pml4 (PhysMem.reaches_pdpr _) (by simp) (head_ne hva []) rfl hfresh1
  obtain rfl := Option.some.inj (hs₁.symm.trans ht₁)
  have hJ₁ := hkeep hJ hB₁ hgen₁
  have hfresh2 := hstage hJ₁ hB₂ hs₂
  obtain ⟨t₂, y₂, ht₂, hw₂, -, hgen₂, -⟩ := ensureTable_step (p := [field virtual_address 39]) hw₁
    (PhysMem.reaches_pdpr _) (PhysMem.reaches_pd _ _) (by simp)
    (head_ne hva [field virtual_address 30]) hy₁ hfresh2
  obtain rfl := Option.some.inj (hs₂.symm.trans ht₂)
  have hJ₂ := hkeep hJ₁ hB₂ hgen₂
  refine ⟨hfresh1, fun r₁ hr₁ => ?_⟩
  obtain rfl := Option.some.inj (hs₁.symm.trans hr₁)
  refine ⟨hfresh2, fun r₂ hr₂ => ?_⟩
  obtain rfl := Option.some.inj (hs₂.symm.trans hr₂)
  exact hstage hJ₂ hgood hs₃

/-- `map_page` makes the missing tables and then writes the entry of the page, if it is not
present. -/
theorem mapPage_spec (hw : s.mem.WellPaged p4_table) {virtual_address : ℕ} (physical_address : ℕ)
    (flags : BitVec 8) (hva : field virtual_address 39 ≠ 510)
    (hfresh : FreshAllocs allocatePhysicalPage p4_table s virtual_address) :
    ∃ s₃ f, Relation.ReflTransGen (Made allocatePhysicalPage p4_table) s s₃ ∧
      s₃.mem.WellPaged p4_table ∧
      descend (s₃.mem.tree p4_table) p4_table
        [field virtual_address 39, field virtual_address 30, field virtual_address 21] = some f ∧
      (descend (s.mem.tree p4_table) p4_table
        [field virtual_address 39, field virtual_address 30, field virtual_address 21] ≠ none →
          s₃ = s) ∧
      mapPage allocatePhysicalPage p4_table s virtual_address physical_address flags =
        some (if present (s₃.mem f (field virtual_address 12)) then s₃
          else { s₃ with
            mem := s₃.mem.set f (field virtual_address 12)
              (alignToPage physical_address ||| flags.toNat) }) := by
  rw [freshAllocs_iff] at hfresh
  simp only [mapPage_eq]
  generalize field virtual_address 39 = a at *
  generalize field virtual_address 30 = b at *
  generalize field virtual_address 21 = c at *
  generalize field virtual_address 12 = d at *
  obtain ⟨hfresh1, hfresh⟩ := hfresh
  obtain ⟨s₁, y₁, hs₁, hw₁, hy₁, hmade₁, hsame₁⟩ := ensureTable_step (p := []) hw
    PhysMem.reaches_pml4 (PhysMem.reaches_pdpr a) (by simp) (head_ne hva []) rfl hfresh1
  obtain ⟨hfresh2, hfresh⟩ := hfresh s₁ hs₁
  obtain ⟨s₂, y₂, hs₂, hw₂, hy₂, hmade₂, hsame₂⟩ := ensureTable_step (p := [a]) hw₁
    (PhysMem.reaches_pdpr a) (PhysMem.reaches_pd a b) (by simp) (head_ne hva [b]) hy₁ hfresh2
  have hfresh3 := hfresh s₂ hs₂
  obtain ⟨s₃, y₃, hs₃, hw₃, hy₃, hmade₃, hsame₃⟩ := ensureTable_step (p := [a, b]) hw₂
    (PhysMem.reaches_pd a b) (PhysMem.reaches_pt a b c) (by simp) (head_ne hva [b, c]) hy₂ hfresh3
  refine ⟨s₃, y₃, (hmade₁.to_reflTransGen.trans hmade₂.to_reflTransGen).trans
    hmade₃.to_reflTransGen, hw₃, hy₃, fun hne => ?_, ?_⟩
  · -- a walk that succeeds succeeds up to each table
    obtain rfl := hsame₁ (descend_of_append (p := [a]) (q := [b, c]) hne)
    obtain rfl := hsame₂ (descend_of_append (p := [a, b]) (q := [c]) hne)
    exact hsame₃ hne
  · have hnext : descend s₃.mem.next p4_table [a, b, c] = some y₃ :=
      (hw₃.descend_eq (head_ne hva [b, c]) (by simp) (fun _ _ => rfl)).trans hy₃
    simp only [hs₁, hs₂, hs₃, Option.bind_eq_bind, Option.bind_some]
    rw [setEntry_eq hw₃ (PhysMem.reaches_pt a b c) hnext]

/-! ## A page that is mapped -/

/-- A block of `map_page` does nothing where the entry is present. -/
theorem ensureTable_of_next (hself : s.mem.next p4_table 510 = some p4_table)
    (htable : PhysMem.Reaches p4_table table p)
    (hnext : descend s.mem.next p4_table (p ++ [i]) ≠ none) :
    ensureTable allocatePhysicalPage p4_table s table i below = some s := by
  obtain ⟨f, hf⟩ := Option.ne_none_iff_exists'.mp (descend_of_append hnext)
  rw [descend_snoc, hf] at hnext
  have hp : present (s.mem f i) = true := by
    by_contra hp
    exact hnext (if_neg hp)
  rw [ensureTable, htable.load hself hf i, Option.bind_eq_bind, Option.bind_some, if_pos hp]

/-- A call for a page that is mapped changes nothing. -/
theorem mapPage_of_mapped (hself : s.mem.next p4_table 510 = some p4_table) {virtual_address : ℕ}
    (physical_address : ℕ) (flags : BitVec 8)
    (hwalk : s.mem.walk p4_table virtual_address ≠ none) :
    mapPage allocatePhysicalPage p4_table s virtual_address physical_address flags = some s := by
  rw [mapPage_eq]
  unfold PhysMem.walk at hwalk
  dsimp only
  generalize field virtual_address 39 = a at *
  generalize field virtual_address 30 = b at *
  generalize field virtual_address 21 = c at *
  generalize field virtual_address 12 = d at *
  -- The walk goes through an entry of each table, so each of them is present.
  have hfirst : descend s.mem.next p4_table ([] ++ [a]) ≠ none :=
    descend_of_append (p := [a]) (q := [b, c, d]) hwalk
  have hsecond : descend s.mem.next p4_table ([a] ++ [b]) ≠ none :=
    descend_of_append (p := [a, b]) (q := [c, d]) hwalk
  have hthird : descend s.mem.next p4_table ([a, b] ++ [c]) ≠ none :=
    descend_of_append (p := [a, b, c]) (q := [d]) hwalk
  simp only [ensureTable_of_next hself PhysMem.reaches_pml4 hfirst,
    ensureTable_of_next hself (PhysMem.reaches_pdpr a) hsecond,
    ensureTable_of_next hself (PhysMem.reaches_pd a b) hthird, Option.bind_eq_bind,
    Option.bind_some]
  obtain ⟨f, hf⟩ := Option.ne_none_iff_exists'.mp hthird
  have hp : present (s.mem f d) = true := by
    by_contra hp
    apply hwalk
    rw [show [a, b, c, d] = [a, b, c] ++ [d] from rfl, descend_snoc, show [a, b, c] = [a, b] ++ [c]
      from rfl, hf]
    exact if_neg hp
  rw [setEntry, (PhysMem.reaches_pt a b c).load hself hf d, Option.bind_eq_bind, Option.bind_some,
    if_pos hp]

/-- A call for a page that only lacks its last-level table makes it, and writes the entry. -/
theorem mapPage_table (hw : s.mem.WellPaged p4_table) {virtual_address : ℕ}
    (physical_address : ℕ) (flags : BitVec 8) (hva : field virtual_address 39 ≠ 510)
    (hf : descend (s.mem.tree p4_table) p4_table
      [field virtual_address 39, field virtual_address 30] = some f)
    (hnone : s.mem.tree p4_table f (field virtual_address 21) = none) {g : ℕ} {frames : α}
    (halloc : allocatePhysicalPage s.frames = (g * 4096, frames)) (hlt : g < 2^40)
    (hnot : ¬ s.mem.IsTable p4_table g) :
    ∃ m : PhysMem,
      Link (s.mem.tree p4_table) (m.tree p4_table) p4_table 3 2 f (field virtual_address 21) g ∧
      m.next p4_table 510 = some p4_table ∧
      m f (field virtual_address 21) = g * 4096 ||| PT_RW_BIT ||| PT_PRESENT_BIT ∧
      (∀ x, x ≠ f → x ≠ g → m x = s.mem x) ∧
      mapPage allocatePhysicalPage p4_table s virtual_address physical_address flags =
        some ⟨m.set g (field virtual_address 12) (alignToPage physical_address ||| flags.toNat),
          frames⟩ := by
  simp only [mapPage_eq]
  generalize field virtual_address 39 = a at *
  generalize field virtual_address 30 = b at *
  generalize field virtual_address 21 = c at *
  generalize field virtual_address 12 = d at *
  obtain ⟨hwalk, htree, -⟩ := path_next (p := [a, b]) hw (by simp) (head_ne hva [b, c]) hf
  have hnext : descend s.mem.next p4_table [a, b] ≠ none := by
    rw [hwalk s.mem (fun _ _ => rfl)]
    exact Option.some_ne_none f
  have hfirst : descend s.mem.next p4_table ([] ++ [a]) ≠ none :=
    descend_of_append (p := [a]) (q := [b]) hnext
  have hp : present (s.mem f c) ≠ true := PhysMem.next_eq_none.mp (htree.symm.trans hnone)
  obtain ⟨m, hm, hlink, hself, hentry, hother⟩ := ensureTable_make (p := [a, b]) hw
    (PhysMem.reaches_pd a b) (PhysMem.reaches_pt a b c) (by simp) (head_ne hva [b, c]) hf hp halloc
    hlt hnot
  refine ⟨m, hlink, hself, hentry, hother, ?_⟩
  have hw' : m.WellPaged p4_table := ⟨hself, hlink.layered hw.layered⟩
  have hpath : descend m.next p4_table [a, b, c] = some g := by
    rw [hw'.descend_eq (head_ne hva [b, c]) (by simp) (fun _ _ => rfl)]
    exact hlink.descend_new hw.layered (by simp) hf
  -- The new table is empty.
  have hg : g ≠ p4_table := fun h => hlink.fresh 0 (Nat.zero_le 3) (at_zero.mpr h)
  have hempty : present (m g d) ≠ true :=
    PhysMem.next_eq_none.mp ((PhysMem.tree_of_ne (Or.inl hg)).symm.trans (hlink.empty d))
  simp only [ensureTable_of_next hw.self PhysMem.reaches_pml4 hfirst,
    ensureTable_of_next hw.self (PhysMem.reaches_pdpr a) hnext, hm, Option.bind_eq_bind,
    Option.bind_some]
  rw [setEntry_eq (s := ⟨m, frames⟩) hw' (PhysMem.reaches_pt a b c) hpath, if_neg hempty]

/-- The same with a frame that can become a table. -/
theorem mapPage_makes_table (hw : s.mem.WellPaged p4_table) {virtual_address : ℕ}
    (physical_address : ℕ) (flags : BitVec 8) (hva : field virtual_address 39 ≠ 510)
    (hf : descend (s.mem.tree p4_table) p4_table
      [field virtual_address 39, field virtual_address 30] = some f)
    (hnone : s.mem.tree p4_table f (field virtual_address 21) = none)
    (hfresh : s.mem.FreshFrame p4_table (allocatePhysicalPage s.frames).1) :
    ∃ s₃ g, MakeTable allocatePhysicalPage p4_table s s₃ 2 f (field virtual_address 21) g ∧
      s₃.mem f (field virtual_address 21) = g * 4096 ||| PT_RW_BIT ||| PT_PRESENT_BIT ∧
      mapPage allocatePhysicalPage p4_table s virtual_address physical_address flags =
        some ⟨s₃.mem.set g (field virtual_address 12)
          (alignToPage physical_address ||| flags.toNat), s₃.frames⟩ := by
  obtain ⟨g, haddr, hpos, hlt, hnot⟩ := hfresh
  obtain ⟨frames, halloc⟩ : ∃ frames, allocatePhysicalPage s.frames = (g * 4096, frames) :=
    ⟨_, Prod.ext haddr rfl⟩
  obtain ⟨m, hlink, hself, hentry, hother, hcall⟩ :=
    mapPage_table hw physical_address flags hva hf hnone halloc hlt hnot
  exact ⟨⟨m, frames⟩, g, ⟨hlink, halloc, hpos, hlt, hself, hother⟩, hentry, hcall⟩

/-! ## What the hardware sees afterwards -/

/-- An entry that `map_page` writes is present when the flags are, and holds the frame. -/
theorem next_mapped {m : PhysMem} {physical_address : ℕ} {flags : BitVec 8}
    (hpa : physical_address < 2^52) (hflags : present flags.toNat = true)
    (h : m f i = alignToPage physical_address ||| flags.toNat) :
    m.next f i = some (physical_address / 4096) := by
  have hlt := flags.isLt
  have hor : alignToPage physical_address ||| flags.toNat =
      physical_address / 4096 * 4096 + flags.toNat := mul_or_of_lt (k := 12) (by omega)
  rw [present, show PT_PRESENT_BIT = 1 from rfl, Nat.and_one_is_mod] at hflags
  -- The present bit comes from the flags, as the address has its low bits clear.
  have hodd : flags.toNat % 2 = 1 := by
    have hne : flags.toNat % 2 ≠ 0 := by simpa using hflags
    omega
  have hbit : present (physical_address / 4096 * 4096 + flags.toNat) = true := by
    rw [present, show PT_PRESENT_BIT = 1 from rfl, Nat.and_one_is_mod]
    have : (physical_address / 4096 * 4096 + flags.toNat) % 2 = 1 := by omega
    rw [this]
    rfl
  rw [PhysMem.next, h, hor, if_pos hbit, frameOf]
  congr 1
  omega

/-- Writing an entry of a last-level table: the slots of addresses stay, and only the addresses with
that slot notice. -/
theorem set_walks {m : PhysMem} {v : ℕ} (hw : m.WellPaged p4_table)
    (hf : At (m.tree p4_table) p4_table 3 f) {a : ℕ} (ha : field a 39 ≠ 510) :
    (m.set f i v).leafSlot p4_table a = m.leafSlot p4_table a ∧
      (m.leafSlot p4_table a ≠ some (f, i) →
        (m.set f i v).walk p4_table a = m.walk p4_table a) := by
  obtain ⟨hleaf, hw'⟩ := setLeaf_set (i := i) (v := v) hw hf
  constructor
  · rw [hw'.leafSlot_eq ha, hw.leafSlot_eq ha, hleaf.descend_table hw.layered (by simp)]
  · intro hslot
    rw [hw'.walk_eq ha, hw.walk_eq ha]
    refine hleaf.descend_other (p := [field a 39, field a 30, field a 21]) hw.layered rfl ?_
    rintro ⟨hd, hi⟩
    apply hslot
    rw [hw.leafSlot_eq ha, hd, ← hi]
    rfl

/-- A call of `map_page` on an address outside the self-map returns, and what it does to the
walks. -/
theorem mapPage_walks (hw : s.mem.WellPaged p4_table) {virtual_address : ℕ} (physical_address : ℕ)
    (flags : BitVec 8) (hva : field virtual_address 39 ≠ 510)
    (hfresh : FreshAllocs allocatePhysicalPage p4_table s virtual_address) :
    ∃ s', mapPage allocatePhysicalPage p4_table s virtual_address physical_address flags = some s' ∧
      s'.mem.WellPaged p4_table ∧
      (s.mem.walk p4_table virtual_address ≠ none → s'.mem = s.mem) ∧
      (s.mem.walk p4_table virtual_address = none → physical_address < 2^52 →
        present flags.toNat = true →
        s'.mem.walk p4_table virtual_address = some (physical_address / 4096)) ∧
      ∀ a, field a 39 ≠ 510 →
        s'.mem.leafSlot p4_table a ≠ s'.mem.leafSlot p4_table virtual_address →
        s'.mem.walk p4_table a = s.mem.walk p4_table a := by
  obtain ⟨s₃, f, hmade, hw₃, hf, hsame, hcall⟩ := mapPage_spec hw physical_address flags hva hfresh
  have hat : At (s₃.mem.tree p4_table) p4_table 3 f := ⟨_, rfl, hf⟩
  have hwalk := hw₃.walk_of_table hva hf
  have hwalks : ∀ a, field a 39 ≠ 510 → s₃.mem.walk p4_table a = s.mem.walk p4_table a :=
    fun a ha => made_walk_eq hmade hw ha
  have hslot : s₃.mem.leafSlot p4_table virtual_address = some (f, field virtual_address 12) := by
    rw [hw₃.leafSlot_eq hva, hf]
    rfl
  refine ⟨_, hcall, ?_⟩
  by_cases hp : present (s₃.mem f (field virtual_address 12)) = true
  · -- the entry was there: the address was mapped, and nothing is written
    rw [if_pos hp]
    have hmapped : s.mem.walk p4_table virtual_address ≠ none := by
      rw [← hwalks _ hva, hwalk]
      exact fun h => PhysMem.next_eq_none.mp h hp
    refine ⟨hw₃, fun h => ?_, fun h => absurd h hmapped, fun a ha _ => hwalks a ha⟩
    rw [hsame (hw.table_of_walk hva h)]
  · rw [if_neg hp]
    -- The entry was free: the address was not mapped, and the entry is written.
    have hnone : s.mem.walk p4_table virtual_address = none := by
      rw [← hwalks _ hva, hwalk]
      exact PhysMem.next_eq_none.mpr hp
    obtain ⟨hslot', -⟩ := set_walks (i := field virtual_address 12)
      (v := alignToPage physical_address ||| flags.toNat) hw₃ hat hva
    have hw' := (setLeaf_set (i := field virtual_address 12)
      (v := alignToPage physical_address ||| flags.toNat) hw₃ hat).2
    refine ⟨hw', fun h => absurd hnone h, fun _ hpa hflags => ?_, fun a ha hne => ?_⟩
    · obtain ⟨hleaf, -⟩ := setLeaf_set (i := field virtual_address 12)
        (v := alignToPage physical_address ||| flags.toNat) hw₃ hat
      have hf' := (hleaf.descend_table hw₃.layered (by simp)).trans hf
      rw [hw'.walk_of_table hva hf']
      exact next_mapped hpa hflags PhysMem.set_self
    · obtain ⟨hslota, hkeep⟩ := set_walks (i := field virtual_address 12)
        (v := alignToPage physical_address ||| flags.toNat) hw₃ hat ha
      rw [hslot', hslot, hslota] at hne
      rw [hkeep hne, hwalks a ha]

end Code

end Potatos
