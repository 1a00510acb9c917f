import Mathlib.Data.BitVec
import Mathlib.Data.List.Induction
import Potatos.Mem.PhysicalAddress

/-!
# The walk over the boot tags

`read_multiboot` of `src/boot/boot.asm`, which goes through the multiboot2 tags and stores the
addresses of the ones that the kernel needs, on the registers that it uses and the memory behind the
boot tables. Everything is read and written in words of eight bytes that do not overlap, as tags are
aligned to eight bytes. A load or a store that the tables do not translate is `none`.

The boot tables map the first 4 MiB, and the walk is right for every block that is there
(`readMultiboot_spec`). The branch for the framebuffer writes into the tables, but not to the
entries that map these 4 MiB. A block behind them is not mapped (`readMultiboot_high`).
-/

namespace Potatos

open Lib

/-- The address of word `k` of a frame of the kernel, where it is linked. -/
def linkedAt (f k : ℕ) : ℕ := 0xFFFFFFFF80000000 + f * 4096 + 8 * k

namespace BootImage

variable (b : BootImage)

/-- The frame of `end_of_mapped_memory` and the four variables behind it. -/
def dataFrame : ℕ := b.fbb_pt_tables + 4

def multiboot_framebuffer_data : ℕ := linkedAt b.dataFrame 1
def multiboot_mmap_data : ℕ := linkedAt b.dataFrame 2
def multiboot_basic_meminfo : ℕ := linkedAt b.dataFrame 3
def multiboot_acpi_info : ℕ := linkedAt b.dataFrame 4

end BootImage

/-- The registers that `read_multiboot` uses, and the memory. -/
structure BootCpu where
  rax : BitVec 64
  rbx : BitVec 64
  rcx : BitVec 64
  mem : PhysMem

/-- `dword [a]`, one half of a word. -/
def loadDword (b : BootImage) (m : PhysMem) (a : BitVec 64) : Option (BitVec 32) :=
  (m.load b.p4_table a.toNat).map (fun w =>
    BitVec.ofNat 32 (if a.toNat % 8 < 4 then w else w / 2^32))

/-- The loop `.map_fb`. -/
def mapFb (b : BootImage) : ℕ → BootCpu → Option BootCpu
  | 0, _ => none
  | fuel + 1, s => do
    let rbx := s.rbx ||| 3
    let mem ← s.mem.store b.p4_table (linkedAt b.fbb_pt_tables s.rcx.toNat) rbx.toNat
    let s := { s with rbx := rbx + 0x1000, rcx := s.rcx + 1, mem := mem }
    if s.rcx ≠ 512 then mapFb b fuel s else some s

/-- `.parse_fb_data`, with small pages. -/
def parseFbData (b : BootImage) (s : BootCpu) : Option BootCpu := do
  let mem ← s.mem.store b.p4_table b.multiboot_framebuffer_data s.rax.toNat
  let rbx : BitVec 64 := BitVec.ofNat 64 (b.fbb_pt_tables * 4096) ||| 3
  let mem ← mem.store b.p4_table (linkedAt b.p2_table 488) rbx.toNat
  let framebuffer_addr ← mem.load b.p4_table (s.rax + 8).toNat
  mapFb b 512 { s with rbx := BitVec.ofNat 64 framebuffer_addr, rcx := 0, mem := mem }

/-- `mov [variable], rax`. -/
def storeTag (b : BootImage) (s : BootCpu) (variable_address : ℕ) : Option BootCpu :=
  (s.mem.store b.p4_table variable_address s.rax.toNat).map (fun mem => { s with mem := mem })

/-- From `read_multiboot` to `.item_not_needed`. -/
def tagItem (b : BootImage) (s : BootCpu) : Option BootCpu := do
  let type ← loadDword b s.mem s.rax
  if type = 8 then parseFbData b s
  else if type = 6 then storeTag b s b.multiboot_mmap_data
  else if type = 4 then storeTag b s b.multiboot_basic_meminfo
  else if type = 14 then storeTag b s b.multiboot_acpi_info
  else if type = 15 then storeTag b s b.multiboot_acpi_info
  else some s

/-- `.item_not_needed`, up to the test for the end. -/
def nextTag (b : BootImage) (s : BootCpu) : Option BootCpu := do
  let size ← loadDword b s.mem (s.rax + 4)
  let rbx := size.setWidth 64
  some { s with rax := (s.rax + rbx + 7) &&& ~~~7, rbx := rbx }

/-- `read_multiboot`, with the values of `rax` at each tag that it looks at. -/
def readMultiboot (b : BootImage) : ℕ → BootCpu → Option (List (BitVec 64) × BootCpu)
  | 0, _ => none
  | fuel + 1, s => do
    let s' ← tagItem b s
    let s' ← nextTag b s'
    let type ← loadDword b s'.mem s'.rax
    if type ≠ 0 then (readMultiboot b fuel s').map (fun r => (s.rax :: r.1, r.2))
    else
      let size ← loadDword b s'.mem (s'.rax + 4)
      if size ≠ 8 then (readMultiboot b fuel s').map (fun r => (s.rax :: r.1, r.2))
      else some ([s.rax], s')

/-! ## The format -/

/-- What all tags have in front. -/
structure BootTag where
  type : BitVec 32
  size : BitVec 32
  type_ne : type ≠ 0
  size_le : 8 ≤ size.toNat

/-- The bytes from a tag to the next one. -/
def BootTag.span (t : BootTag) : ℕ := (t.size.toNat + 7) / 8 * 8

/-- The word at a physical address. -/
def wordAt (m : PhysMem) (a : ℕ) : ℕ := m (a / 4096) (field a 3)

/-- The word at `a` is the front of a tag. -/
def FrontAt (m : PhysMem) (a : ℕ) (type size : BitVec 32) : Prop :=
  BitVec.ofNat 32 (wordAt m a) = type ∧ BitVec.ofNat 32 (wordAt m a / 2^32) = size

instance (m : PhysMem) (a : ℕ) (type size : BitVec 32) : Decidable (FrontAt m a type size) :=
  inferInstanceAs (Decidable (_ ∧ _))

/-- The tags with their addresses, from `a` on. -/
def placed : ℕ → List BootTag → List (ℕ × BootTag)
  | _, [] => []
  | a, t :: ts => (a, t) :: placed (a + t.span) ts

/-- Where the terminator is. -/
def terminatorAt (a : ℕ) (ts : List BootTag) : ℕ := a + (ts.map BootTag.span).sum

/-- The memory has the tags from `a` on, and then the terminator. -/
structure TagsAt (m : PhysMem) (a : ℕ) (ts : List BootTag) : Prop where
  tags : ∀ x ∈ placed a ts, FrontAt m x.1 x.2.type x.2.size
  terminator : FrontAt m (terminatorAt a ts) 0 8

/-- The address of the last tag that meets `p`, or `v` if there is none. -/
def lastTag (p : BootTag → Prop) [DecidablePred p] (tags : List (ℕ × BootTag)) (v : ℕ) : ℕ :=
  match (tags.filter (fun x => p x.2)).getLast? with
  | some x => x.1
  | none => v

variable {b : BootImage} {m m₀ : PhysMem} {s : BootCpu} {a f k v n fuel : ℕ} {t : BootTag}
  {ts : List BootTag}

/-! ## The memory during the walk -/

/-- What the walk keeps: the mapping of the first 4 MiB, and every frame but the three that it
writes. -/
structure Walked (b : BootImage) (m₀ m : PhysMem) : Prop where
  mapped : b.BootMapped m
  frames : ∀ f, f ≠ b.p2_table → f ≠ b.fbb_pt_tables → f ≠ b.dataFrame → m f = m₀ f

/-- The four variables. -/
@[ext]
structure BootData where
  framebuffer_data : ℕ
  mmap_data : ℕ
  basic_meminfo : ℕ
  acpi_info : ℕ

def bootData (b : BootImage) (m : PhysMem) : BootData :=
  ⟨m b.dataFrame 1, m b.dataFrame 2, m b.dataFrame 3, m b.dataFrame 4⟩

/-- What a tag at `a` does to them. -/
def BootData.visit (d : BootData) (a : ℕ) (t : BootTag) : BootData :=
  if t.type = 8 then { d with framebuffer_data := a }
  else if t.type = 6 then { d with mmap_data := a }
  else if t.type = 4 then { d with basic_meminfo := a }
  else if t.type = 14 ∨ t.type = 15 then { d with acpi_info := a }
  else d

/-- An address below 4 MiB is its physical address. -/
theorem load_low (h : b.BootMapped m) (ha : a < 2^22) :
    m.load b.p4_table a = some (wordAt m a) := by
  have hwalk : m.walk b.p4_table a = some (a / 4096) :=
    (walk_congr (by omega)).trans (h.walk (by omega : a / 4096 < 1024) (Or.inl rfl))
  rw [PhysMem.load, hwalk]
  rfl

/-- A store to a frame of the kernel. -/
theorem store_linked (h : b.BootMapped m) (hf : f < 1024) (hk : k < 512) :
    m.store b.p4_table (linkedAt f k) v = some (m.set f ⟨k, hk⟩ v) := by
  have hwalk : m.walk b.p4_table (linkedAt f k) = some f :=
    (walk_congr (by unfold linkedAt; omega)).trans (h.walk hf (Or.inr rfl))
  have hfield : field (linkedAt f k) 3 = ⟨k, hk⟩ := field_eq (by
    show (0xFFFFFFFF80000000 + f * 4096 + 8 * k) / 2^3 % 512 = k
    omega)
  rw [PhysMem.store, hwalk, hfield]
  rfl

/-- Writing elsewhere keeps the mapping. -/
theorem BootImage.BootMapped.set (h : b.BootMapped m) {i : Fin 512}
    (hf : f < b.p4_table ∨ b.fbb_pt_tables ≤ f ∨ (f = b.p2_table ∧ 2 ≤ i.val)) :
    b.BootMapped (m.set f i v) := by
  have hother : ∀ g (j : Fin 512), g ≠ f ∨ j ≠ i → (m.set f i v).next g j = m.next g j := by
    intro g j hne
    have hentry : m.set f i v g j = m g j := by
      unfold PhysMem.set
      by_cases hg : g = f
      · subst hg
        rw [Function.update_self, Function.update_of_ne (hne.resolve_left (fun hne => hne rfl))]
      · rw [Function.update_of_ne hg]
    unfold PhysMem.next
    rw [hentry]
  have h2 : b.p2_table = b.p4_table + 2 := rfl
  have h3 : b.p3_table = b.p4_table + 1 := rfl
  have hpt : b.pt_tables = b.p4_table + 3 := rfl
  have hfbb : b.fbb_pt_tables = b.p4_table + 7 := rfl
  constructor
  · intro j hj
    rw [hother _ _ (Or.inl (by omega))]
    exact h.p4 j hj
  · intro j hj
    rw [hother _ _ (Or.inl (by omega))]
    exact h.p3 j hj
  · intro j hj
    rw [hother]
    · exact h.p2 j hj
    · by_cases hg : f = b.p2_table
      · have hi : 2 ≤ i.val := by omega
        refine Or.inr (fun heq => ?_)
        rw [← heq] at hi
        exact absurd hi (by simpa using hj)
      · exact Or.inl (fun heq => hg heq.symm)
  · intro j hj x
    rw [hother _ _ (Or.inl (by omega))]
    exact h.pt j hj x

/-- A store to one of the frames that the walk writes. -/
theorem Walked.set (h : Walked b m₀ m) {i : Fin 512}
    (hf : f = b.fbb_pt_tables ∨ f = b.dataFrame ∨ (f = b.p2_table ∧ 2 ≤ i.val)) :
    Walked b m₀ (m.set f i v) where
  mapped := by
    apply h.mapped.set
    unfold BootImage.dataFrame at hf
    omega
  frames := by
    intro g h2 hfbb hdata
    have hne : g ≠ f := by
      rintro rfl
      rcases hf with hf | hf | ⟨hf, -⟩
      · exact hfbb hf
      · exact hdata hf
      · exact h2 hf
    rw [← h.frames g h2 hfbb hdata, PhysMem.set, Function.update_of_ne hne]

theorem bootData_set (hf : f ≠ b.dataFrame) {i : Fin 512} :
    bootData b (m.set f i v) = bootData b m := by
  unfold bootData PhysMem.set
  rw [Function.update_of_ne hf.symm]

/-! ## One tag -/

/-- `.map_fb` fills the table of the framebuffer. -/
theorem mapFb_spec (hfbb : b.fbb_pt_tables < 1024) (h : Walked b m₀ s.mem)
    (hrcx : s.rcx.toNat + fuel = 512) (hfuel : 0 < fuel) :
    ∃ s', mapFb b fuel s = some s' ∧ s'.rax = s.rax ∧ Walked b m₀ s'.mem ∧
      bootData b s'.mem = bootData b s.mem := by
  induction fuel generalizing s with
  | zero => omega
  | succ fuel ih =>
    have hstore := store_linked (v := (s.rbx ||| 3).toNat) h.mapped hfbb
      (by omega : s.rcx.toNat < 512)
    have hdata : b.fbb_pt_tables ≠ b.dataFrame := by unfold BootImage.dataFrame; omega
    have hnext : (s.rcx + 1).toNat = s.rcx.toNat + 1 := by
      rw [BitVec.toNat_add]
      exact Nat.mod_eq_of_lt (by show s.rcx.toNat + 1 < 2^64; omega)
    rw [mapFb]
    dsimp only
    rw [hstore, Option.bind_eq_bind, Option.bind_some]
    by_cases hend : s.rcx + 1 = 512
    · rw [if_neg (not_not.mpr hend)]
      exact ⟨_, rfl, rfl, h.set (Or.inl rfl), bootData_set hdata⟩
    · have hne : s.rcx.toNat + 1 ≠ 512 := by
        intro heq
        apply hend
        apply BitVec.eq_of_toNat_eq
        rw [hnext, heq]
        rfl
      rw [if_pos hend]
      obtain ⟨s', hs', hrax, hwalked, hkeep⟩ := ih
        (s := ⟨s.rax, (s.rbx ||| 3) + 0x1000, s.rcx + 1, _⟩) (h.set (Or.inl rfl))
        (by show (s.rcx + 1).toNat + fuel = 512; omega) (by omega)
      exact ⟨s', hs', hrax, hwalked, hkeep.trans (bootData_set hdata)⟩

/-- The boot data of the kernel is in the 4 MiB that are mapped. -/
def BootImage.Low (b : BootImage) : Prop := b.dataFrame < 1024

theorem BootImage.Low.frames (hb : b.Low) : b.p2_table < 1024 ∧ b.fbb_pt_tables < 1024 := by
  unfold Low dataFrame at hb
  have h2 : b.p2_table = b.p4_table + 2 := rfl
  have hfbb : b.fbb_pt_tables = b.p4_table + 7 := rfl
  omega

/-- The entry for the table of the framebuffer, which maps no page of the first 4 MiB. -/
theorem store_p2 (hb : b.Low) (h : Walked b m₀ m) :
    ∃ m', m.store b.p4_table (linkedAt b.p2_table 488) v = some m' ∧ Walked b m₀ m' ∧
      bootData b m' = bootData b m := by
  have hne : b.p2_table ≠ b.dataFrame := by
    show b.p4_table + 2 ≠ b.p4_table + 7 + 4
    omega
  have hindex : (2 : ℕ) ≤ 488 := by omega
  exact ⟨_, store_linked h.mapped hb.frames.1 (by omega), h.set (Or.inr (Or.inr ⟨rfl, hindex⟩)),
    bootData_set hne⟩

/-- A variable. -/
theorem store_data (hb : b.Low) (h : Walked b m₀ m) (hk : k < 512) :
    ∃ m', m.store b.p4_table (linkedAt b.dataFrame k) v = some m' ∧ Walked b m₀ m' ∧
      m' b.dataFrame = Function.update (m b.dataFrame) ⟨k, hk⟩ v :=
  ⟨_, store_linked h.mapped hb hk, h.set (Or.inr (Or.inl rfl)), Function.update_self ..⟩

/-- The branch for the framebuffer. -/
theorem parseFbData_spec (hb : b.Low) (h : Walked b m₀ s.mem) (ha : s.rax.toNat + 8 < 2^22) :
    ∃ s', parseFbData b s = some s' ∧ s'.rax = s.rax ∧ Walked b m₀ s'.mem ∧
      bootData b s'.mem = { bootData b s.mem with framebuffer_data := s.rax.toNat } := by
  have haddr : (s.rax + 8).toNat = s.rax.toNat + 8 := by
    rw [BitVec.toNat_add]
    exact Nat.mod_eq_of_lt (by show s.rax.toNat + 8 < 2^64; omega)
  -- The variable, the entry for the table, the address of the framebuffer, and the table.
  obtain ⟨m₁, hstore₁, hwalked₁, hdata₁⟩ := store_data (v := s.rax.toNat) hb h (by omega : 1 < 512)
  obtain ⟨m₂, hstore₂, hwalked₂, hdata₂⟩ :=
    store_p2 (v := (BitVec.ofNat 64 (b.fbb_pt_tables * 4096) ||| 3).toNat) hb hwalked₁
  have hload := load_low (a := (s.rax + 8).toNat) hwalked₂.mapped (by omega)
  obtain ⟨s', hs', hrax, hwalked, hdata⟩ := mapFb_spec hb.frames.2
    (s := ⟨s.rax, BitVec.ofNat 64 (wordAt m₂ (s.rax + 8).toNat), 0, m₂⟩) hwalked₂
    (rfl : (0 : BitVec 64).toNat + 512 = 512) (by omega)
  refine ⟨s', ?_, hrax, hwalked, ?_⟩
  · rw [parseFbData, BootImage.multiboot_framebuffer_data, hstore₁, Option.bind_eq_bind,
      Option.bind_some]
    dsimp only
    rw [hstore₂, Option.bind_some, hload]
    exact hs'
  · rw [hdata, hdata₂, bootData, hdata₁]
    rfl

/-- A branch that only stores the address of the tag. -/
theorem storeTag_spec (hb : b.Low) (h : Walked b m₀ s.mem) (hk : k < 512) :
    ∃ s', storeTag b s (linkedAt b.dataFrame k) = some s' ∧ s'.rax = s.rax ∧ Walked b m₀ s'.mem ∧
      s'.mem b.dataFrame = Function.update (s.mem b.dataFrame) ⟨k, hk⟩ s.rax.toNat := by
  obtain ⟨m', hstore, hwalked, hdata⟩ := store_data (v := s.rax.toNat) hb h hk
  exact ⟨{ s with mem := m' }, by rw [storeTag, hstore]; rfl, rfl, hwalked, hdata⟩

/-- The halves of a word. -/
theorem loadDword_eq (h : b.BootMapped m) (ha : s.rax.toNat % 8 = 0) (hlt : s.rax.toNat < 2^22)
    {type size : BitVec 32} (hfront : FrontAt m s.rax.toNat type size) :
    loadDword b m s.rax = some type ∧ loadDword b m (s.rax + 4) = some size := by
  have haddr : (s.rax + 4).toNat = s.rax.toNat + 4 := by
    rw [BitVec.toNat_add]
    exact Nat.mod_eq_of_lt (by show s.rax.toNat + 4 < 2^64; omega)
  have hword : wordAt m (s.rax.toNat + 4) = wordAt m s.rax.toNat := by
    have hfield : field (s.rax.toNat + 4) 3 = field s.rax.toNat 3 := field_eq (by
      show (s.rax.toNat + 4) / 2^3 % 512 = s.rax.toNat / 2^3 % 512
      omega)
    have hframe : (s.rax.toNat + 4) / 4096 = s.rax.toNat / 4096 := by omega
    rw [wordAt, wordAt, hfield, hframe]
  constructor
  · rw [loadDword, load_low h hlt, Option.map_some, if_pos (by omega), hfront.1]
  · rw [loadDword, haddr, load_low h (by omega), Option.map_some, if_neg (by omega), hword,
      hfront.2]

/-- The branch of a tag stores its address in the variable of its type. -/
theorem tagItem_spec (hb : b.Low) (h : Walked b m₀ s.mem) (hlt : s.rax.toNat + 8 < 2^22)
    (htype : loadDword b s.mem s.rax = some t.type) :
    ∃ s', tagItem b s = some s' ∧ s'.rax = s.rax ∧ Walked b m₀ s'.mem ∧
      bootData b s'.mem = (bootData b s.mem).visit s.rax.toNat t := by
  rw [tagItem, htype, Option.bind_eq_bind, Option.bind_some, ← ite_or]
  unfold BootData.visit
  split_ifs with h8 h6 h4 hacpi
  · exact parseFbData_spec hb h hlt
  · obtain ⟨s', hs', hrax, hwalked, hdata⟩ := storeTag_spec hb h (by omega : 2 < 512)
    exact ⟨s', hs', hrax, hwalked, by rw [bootData, hdata]; rfl⟩
  · obtain ⟨s', hs', hrax, hwalked, hdata⟩ := storeTag_spec hb h (by omega : 3 < 512)
    exact ⟨s', hs', hrax, hwalked, by rw [bootData, hdata]; rfl⟩
  · obtain ⟨s', hs', hrax, hwalked, hdata⟩ := storeTag_spec hb h (by omega : 4 < 512)
    exact ⟨s', hs', hrax, hwalked, by rw [bootData, hdata]; rfl⟩
  · exact ⟨s, rfl, rfl, h, rfl⟩

/-- The mask clears the last three bits. -/
theorem and_not_seven (x : BitVec 64) : (x &&& ~~~7).toNat = x.toNat / 8 * 8 := by
  have hmask : ∀ i : Fin 64, (~~~7 : BitVec 64).getLsbD i = decide (3 ≤ i.val) := by decide
  have hshift : x &&& ~~~(7 : BitVec 64) = (x >>> 3) <<< 3 := by
    apply BitVec.eq_of_getLsbD_eq
    intro i hi
    rw [BitVec.getLsbD_and, hmask ⟨i, hi⟩, BitVec.getLsbD_shiftLeft, BitVec.getLsbD_ushiftRight]
    by_cases h3 : 3 ≤ i
    · simp [h3, hi, show ¬ i < 3 by omega, show 3 + (i - 3) = i by omega]
    · simp [h3, show i < 3 by omega]
  have hx := x.isLt
  rw [hshift, BitVec.toNat_shiftLeft, BitVec.toNat_ushiftRight, Nat.shiftRight_eq_div_pow,
    Nat.shiftLeft_eq]
  exact Nat.mod_eq_of_lt (by omega)

/-- The step to the next tag. -/
theorem nextTag_spec (ha : s.rax.toNat % 8 = 0) (hlt : s.rax.toNat + t.span < 2^22)
    (hsize : loadDword b s.mem (s.rax + 4) = some t.size) :
    ∃ s', nextTag b s = some s' ∧ s'.rax.toNat = s.rax.toNat + t.span ∧ s'.mem = s.mem := by
  have hspan : t.span = (t.size.toNat + 7) / 8 * 8 := rfl
  have hnext : nextTag b s = some { s with
      rax := (s.rax + t.size.setWidth 64 + 7) &&& ~~~7, rbx := t.size.setWidth 64 } := by
    rw [nextTag, hsize]
    rfl
  have hwide : (t.size.setWidth 64).toNat = t.size.toNat :=
    BitVec.toNat_setWidth_of_le (by norm_num)
  have hsum : (s.rax + t.size.setWidth 64 + 7).toNat = s.rax.toNat + t.size.toNat + 7 := by
    rw [BitVec.toNat_add, BitVec.toNat_add, hwide]
    show ((s.rax.toNat + t.size.toNat) % 2^64 + 7) % 2^64 = _
    omega
  refine ⟨_, hnext, ?_, rfl⟩
  rw [and_not_seven, hsum]
  omega

/-! ## The whole walk -/

/-- A frame that the walk does not write. -/
def Clear (b : BootImage) (f : ℕ) : Prop :=
  f ≠ b.p2_table ∧ f ≠ b.fbb_pt_tables ∧ f ≠ b.dataFrame

/-- The tags of a multiboot2 block from `a` on, clear of the data of the kernel. -/
structure TagBlock (b : BootImage) (m : PhysMem) (a : ℕ) (ts : List BootTag) : Prop where
  aligned : a % 8 = 0
  tags : TagsAt m a ts
  clear : ∀ x, a ≤ x → x < terminatorAt a ts + 8 → Clear b (x / 4096)

theorem Walked.front {type size : BitVec 32} (h : Walked b m₀ m) (hclear : Clear b (a / 4096))
    (hfront : FrontAt m₀ a type size) : FrontAt m a type size := by
  unfold FrontAt wordAt at *
  rw [h.frames _ hclear.1 hclear.2.1 hclear.2.2]
  exact hfront

theorem BootTag.le_span (t : BootTag) : 8 ≤ t.span ∧ t.span % 8 = 0 := by
  have hsize := t.size_le
  unfold span
  omega

theorem terminatorAt_cons : terminatorAt a (t :: ts) = terminatorAt (a + t.span) ts := by
  rw [terminatorAt, terminatorAt, List.map_cons, List.sum_cons, Nat.add_assoc]

theorem le_terminatorAt : a ≤ terminatorAt a ts := Nat.le_add_right ..

/-- The block behind its first tag. -/
theorem TagBlock.tail (h : TagBlock b m a (t :: ts)) : TagBlock b m (a + t.span) ts where
  aligned := by
    have haligned := h.aligned
    have hspan := t.le_span
    omega
  tags := by
    constructor
    · exact fun x hx => h.tags.tags x (List.mem_cons_of_mem _ hx)
    · rw [← terminatorAt_cons]
      exact h.tags.terminator
  clear := by
    intro x hlo hhi
    rw [← terminatorAt_cons] at hhi
    exact h.clear x (by omega) hhi

/-- The type and the size in front of a block: of its first tag, or of the terminator. -/
def front : List BootTag → BitVec 32 × BitVec 32
  | [] => (0, 8)
  | t :: _ => (t.type, t.size)

theorem TagsAt.front (h : TagsAt m a ts) : FrontAt m a (front ts).1 (front ts).2 := by
  cases ts with
  | nil => exact h.terminator
  | cons t ts => exact h.tags (a, t) List.mem_cons_self

/-- The walk reads them there. -/
theorem TagBlock.loads (h : TagBlock b m₀ a ts) (hend : terminatorAt a ts + 8 ≤ 0x400000)
    (hwalked : Walked b m₀ s.mem) (hrax : s.rax.toNat = a) :
    loadDword b s.mem s.rax = some (front ts).1 ∧
      loadDword b s.mem (s.rax + 4) = some (front ts).2 := by
  subst hrax
  have hle : s.rax.toNat ≤ terminatorAt s.rax.toNat ts := le_terminatorAt
  exact loadDword_eq hwalked.mapped h.aligned (by omega)
    (hwalked.front (h.clear _ (le_refl _) (by omega)) h.tags.front)

/-- A tag, and the step to what is behind it. -/
theorem visitTag_spec (hb : b.Low) (hblock : TagBlock b m₀ a (t :: ts))
    (hend : terminatorAt a (t :: ts) + 8 ≤ 0x400000) (hwalked : Walked b m₀ s.mem)
    (hrax : s.rax.toNat = a) :
    ∃ s₁ s₂, tagItem b s = some s₁ ∧ nextTag b s₁ = some s₂ ∧ s₂.rax.toNat = a + t.span ∧
      Walked b m₀ s₂.mem ∧ bootData b s₂.mem = (bootData b s.mem).visit a t := by
  have haligned := hblock.aligned
  have hspan := t.le_span
  have hle : a + t.span ≤ terminatorAt a (t :: ts) := by
    rw [terminatorAt_cons]
    exact le_terminatorAt
  obtain ⟨s₁, hitem, hrax₁, hwalked₁, hdata⟩ :=
    tagItem_spec hb hwalked (by omega) (hblock.loads hend hwalked hrax).1
  have hsame : s₁.rax.toNat = a := by rw [hrax₁, hrax]
  -- The branch kept the size where it was.
  obtain ⟨s₂, hnext, hrax₂, hmem⟩ := nextTag_spec (by omega) (by omega)
    (hblock.loads hend hwalked₁ hsame).2
  rw [hsame] at hrax₂
  rw [hrax] at hdata
  exact ⟨s₁, s₂, hitem, hnext, hrax₂, hmem ▸ hwalked₁, hmem ▸ hdata⟩

/-- Behind the tag is another one. -/
theorem readMultiboot_continue (hitem : tagItem b s = some s₁) (hnext : nextTag b s₁ = some s₂)
    {type : BitVec 32} (htype : loadDword b s₂.mem s₂.rax = some type) (hne : type ≠ 0) :
    readMultiboot b (fuel + 1) s =
      (readMultiboot b fuel s₂).map (fun r => (s.rax :: r.1, r.2)) := by
  rw [readMultiboot, hitem, Option.bind_eq_bind, Option.bind_some, hnext, Option.bind_eq_bind,
    Option.bind_some, htype, Option.bind_some, if_pos hne]

/-- Behind the tag is the terminator. -/
theorem readMultiboot_halt (hitem : tagItem b s = some s₁) (hnext : nextTag b s₁ = some s₂)
    (htype : loadDword b s₂.mem s₂.rax = some 0)
    (hsize : loadDword b s₂.mem (s₂.rax + 4) = some 8) :
    readMultiboot b (fuel + 1) s = some ([s.rax], s₂) := by
  rw [readMultiboot, hitem, Option.bind_eq_bind, Option.bind_some, hnext, Option.bind_eq_bind,
    Option.bind_some, htype, Option.bind_some, if_neg (not_not.mpr rfl), hsize]
  rfl

/-- From a tag on, the walk goes through the tags in order, and halts at the terminator. -/
theorem readMultiboot_run (hb : b.Low) (hblock : TagBlock b m₀ a (t :: ts))
    (hend : terminatorAt a (t :: ts) + 8 ≤ 0x400000) (hwalked : Walked b m₀ s.mem)
    (hrax : s.rax.toNat = a) (hfuel : ts.length < fuel) :
    ∃ visited s', readMultiboot b fuel s = some (visited, s') ∧
      visited.map BitVec.toNat = (placed a (t :: ts)).map Prod.fst ∧
      s'.rax.toNat = terminatorAt a (t :: ts) ∧
      bootData b s'.mem = (placed a (t :: ts)).foldl (fun d x => d.visit x.1 x.2)
        (bootData b s.mem) := by
  induction ts generalizing a t s fuel with
  | nil =>
    obtain ⟨fuel, rfl⟩ : ∃ n, fuel = n + 1 := ⟨fuel - 1, by omega⟩
    obtain ⟨s₁, s₂, hitem, hnext, hrax₂, hwalked₂, hdata⟩ :=
      visitTag_spec hb hblock hend hwalked hrax
    rw [terminatorAt_cons] at hend
    obtain ⟨htype, hsize⟩ := hblock.tail.loads hend hwalked₂ hrax₂
    refine ⟨[s.rax], s₂, readMultiboot_halt hitem hnext htype hsize, ?_, hrax₂, hdata⟩
    rw [List.map_singleton, hrax]
    rfl
  | cons t' ts ih =>
    obtain ⟨fuel, rfl⟩ : ∃ n, fuel = n + 1 := ⟨fuel - 1, by omega⟩
    rw [List.length_cons] at hfuel
    obtain ⟨s₁, s₂, hitem, hnext, hrax₂, hwalked₂, hdata⟩ :=
      visitTag_spec hb hblock hend hwalked hrax
    rw [terminatorAt_cons] at hend
    obtain ⟨htype, -⟩ := hblock.tail.loads hend hwalked₂ hrax₂
    obtain ⟨visited, s', hrun, hvisited, hrax', hdata'⟩ :=
      ih hblock.tail hend hwalked₂ hrax₂ (by omega : ts.length < fuel)
    refine ⟨s.rax :: visited, s', ?_, ?_, ?_, ?_⟩
    · rw [readMultiboot_continue hitem hnext htype t'.type_ne, hrun]
      rfl
    · rw [List.map_cons, hvisited, hrax]
      rfl
    · exact hrax'.trans terminatorAt_cons.symm
    · rw [hdata', hdata]
      rfl

/-- One more tag is the last one if it meets `p`. -/
theorem lastTag_concat {p : BootTag → Prop} [DecidablePred p] (tags : List (ℕ × BootTag))
    (x : ℕ × BootTag) :
    lastTag p (tags ++ [x]) v = if p x.2 then x.1 else lastTag p tags v := by
  unfold lastTag
  rw [List.filter_append]
  by_cases h : p x.2
  · simp [h]
  · simp [h]

/-- The tags leave in each variable the last one of its types. -/
theorem foldl_visit (tags : List (ℕ × BootTag)) (d : BootData) :
    tags.foldl (fun d x => d.visit x.1 x.2) d =
      { framebuffer_data := lastTag (fun t => t.type = 8) tags d.framebuffer_data
        mmap_data := lastTag (fun t => t.type = 6) tags d.mmap_data
        basic_meminfo := lastTag (fun t => t.type = 4) tags d.basic_meminfo
        acpi_info := lastTag (fun t => t.type = 14 ∨ t.type = 15) tags d.acpi_info } := by
  induction tags using List.reverseRecOn with
  | nil => rfl
  | append_singleton tags x ih =>
    rw [List.foldl_append, List.foldl_cons, List.foldl_nil, ih]
    simp only [lastTag_concat]
    unfold BootData.visit
    -- The types of the branches are different, so at most one variable changes.
    by_cases h8 : x.2.type = 8
    · simp [h8]
    · by_cases h6 : x.2.type = 6
      · simp [h6]
      · by_cases h4 : x.2.type = 4
        · simp [h4]
        · by_cases hacpi : x.2.type = 14 ∨ x.2.type = 15
          · simp only [h8, h6, h4, hacpi, if_true, if_false]
          · simp only [h8, h6, h4, hacpi, if_false]

/-- For a block in the 4 MiB that the boot tables map, `read_multiboot` goes through the tags in
order, halts at the terminator, and leaves in each variable the last tag of its types. -/
theorem readMultiboot_spec {rest : PhysMem} {info : ℕ} (hb : b.Low)
    (hmem : s.mem = b.tables none rest) (hrax : s.rax.toNat = info + 8) (hts : ts ≠ [])
    (hblock : TagBlock b s.mem (info + 8) ts) (hend : terminatorAt (info + 8) ts + 8 ≤ 0x400000)
    (hfuel : ts.length ≤ fuel) :
    ∃ visited s', readMultiboot b fuel s = some (visited, s') ∧
      visited.map BitVec.toNat = (placed (info + 8) ts).map Prod.fst ∧
      s'.rax.toNat = terminatorAt (info + 8) ts ∧
      bootData b s'.mem =
        { framebuffer_data := lastTag (fun t => t.type = 8) (placed (info + 8) ts)
            (bootData b s.mem).framebuffer_data
          mmap_data := lastTag (fun t => t.type = 6) (placed (info + 8) ts)
            (bootData b s.mem).mmap_data
          basic_meminfo := lastTag (fun t => t.type = 4) (placed (info + 8) ts)
            (bootData b s.mem).basic_meminfo
          acpi_info := lastTag (fun t => t.type = 14 ∨ t.type = 15) (placed (info + 8) ts)
            (bootData b s.mem).acpi_info } := by
  obtain ⟨t, ts, rfl⟩ := List.exists_cons_of_ne_nil hts
  rw [List.length_cons] at hfuel
  have hmapped : b.BootMapped s.mem := hmem ▸ BootImage.tables_bootMapped
  obtain ⟨visited, s', hrun, hvisited, hrax', hdata⟩ := readMultiboot_run hb hblock hend
    ⟨hmapped, fun _ _ _ _ => rfl⟩ hrax (by omega : ts.length < fuel)
  exact ⟨visited, s', hrun, hvisited, hrax', hdata.trans (foldl_visit _ _)⟩

/-- The boot tables at 1 MiB, and a block with a memory map and a framebuffer at the start of a
frame. -/
def imageAtOneMiB : BootImage := ⟨256, oneMiB_room⟩

def memWithTags (frame : ℕ) : PhysMem := imageAtOneMiB.tables none (fun f i =>
  if f = frame ∧ i = 1 then 6 + 20 * 2^32
  else if f = frame ∧ i = 4 then 8 + 38 * 2^32
  else if f = frame ∧ i = 9 then 8 * 2^32
  else 0)

def twoTags : List BootTag :=
  [⟨6, 20, by decide, by decide⟩, ⟨8, 38, by decide, by decide⟩]

theorem memWithTags_block {frame : ℕ} (hframe : frame = 9 ∨ frame = 1024) :
    TagBlock imageAtOneMiB (memWithTags frame) (frame * 4096 + 8) twoTags where
  aligned := by omega
  tags := by
    rcases hframe with rfl | rfl
    · constructor
      · decide
      · decide
    · constructor
      · decide
      · decide
  clear := by
    intro x hlo hhi
    have hend : terminatorAt (frame * 4096 + 8) twoTags = frame * 4096 + 8 + 64 := rfl
    have hx : x / 4096 = frame := by omega
    rw [hx, Clear]
    rcases hframe with rfl | rfl
    · decide
    · decide

/-- The block at `0x9000`. -/
theorem readMultiboot_spec_twoTags : ∃ visited s',
    readMultiboot imageAtOneMiB 2 ⟨0x9008, 0, 0, memWithTags 9⟩ = some (visited, s') ∧
      visited.map BitVec.toNat = [0x9008, 0x9020] ∧ s'.rax.toNat = 0x9048 ∧
      bootData imageAtOneMiB s'.mem = ⟨0x9020, 0x9008, 0, 0⟩ :=
  readMultiboot_spec (s := ⟨0x9008, 0, 0, memWithTags 9⟩) (by show 256 + 7 + 4 < 1024; norm_num) rfl
    (rfl : _ = 0x9000 + 8) (List.cons_ne_nil _ _) (memWithTags_block (Or.inl rfl)) (by decide)
    (by decide)

/-- A block at 4 MiB is not mapped: the first load faults. -/
theorem readMultiboot_high :
    TagBlock imageAtOneMiB (memWithTags 1024) (0x400000 + 8) twoTags ∧
      ∀ fuel, readMultiboot imageAtOneMiB fuel ⟨0x400008, 0, 0, memWithTags 1024⟩ = none := by
  refine ⟨memWithTags_block (Or.inr rfl), fun fuel => ?_⟩
  have hload : loadDword imageAtOneMiB (memWithTags 1024) 0x400008 = none := by decide
  cases fuel with
  | zero => rfl
  | succ fuel =>
    rw [readMultiboot, tagItem]
    dsimp only
    rw [hload]
    rfl

end Potatos
