import Potatos.Lib.ByteMemory
import Potatos.Mem.PhysicalAddress

/-!
# The code at `start`

The 32-bit code of `src/boot/boot.asm`, from the entry to the jump into long mode, on the registers
and the bytes of physical memory. It links the tables and fills the directory and the first two
page tables by stores of four bytes, so an entry has its value when the upper four bytes are 0
before: the loader has cleared the `.bss`. The `lgdt` and the far jump at the end are left out.

`start_tables` says that the words of memory are then `BootImage.tables`, and that the processor is
in long mode on them.
-/

namespace Potatos

open Lib

/-- The registers, the control registers, the extended feature register, and the memory. -/
structure StartCpu where
  eax : BitVec 32
  ebx : BitVec 32
  ecx : BitVec 32
  edx : BitVec 32
  edi : BitVec 32
  esi : BitVec 32
  cr0 : BitVec 32
  cr3 : BitVec 32
  cr4 : BitVec 32
  efer : BitVec 64
  mem : ByteMemory

/-- `mov dword [a], v`. -/
def movDword (m : ByteMemory) (a v : BitVec 32) : ByteMemory := store 4 m a.toNat v.toNat

/-- The address of a frame of the kernel less `KERNEL_VIRTUAL_ADDR`. -/
def lowAddress (f : ℕ) : BitVec 32 := BitVec.ofNat 32 (f * 4096)

/-- `PRESENT_BIT | WRITE_BIT`, which is also `PAGE_TABLE_ENTRY`. -/
def PRESENT_WRITE : BitVec 32 := 1 ||| 2

def PD_LOOP_LIMIT : BitVec 32 := 2

def LOOP_LIMIT : BitVec 32 := 1024

section Code

variable (b : BootImage)

/-- The entries of `p4_table` and `p3_table`. -/
def linkTables (s : StartCpu) : StartCpu :=
  let eax := lowAddress b.p3_table ||| PRESENT_WRITE
  let mem := movDword s.mem (lowAddress b.p4_table + 0) eax
  let eax := lowAddress b.p3_table ||| PRESENT_WRITE
  let mem := movDword mem (lowAddress b.p4_table + 511 * 8) eax
  let eax := lowAddress b.p4_table ||| PRESENT_WRITE
  let mem := movDword mem (lowAddress b.p4_table + 510 * 8) eax
  let eax := lowAddress b.p2_table ||| PRESENT_WRITE
  let mem := movDword mem (lowAddress b.p3_table + 0) eax
  let eax := lowAddress b.p2_table ||| PRESENT_WRITE
  let mem := movDword mem (lowAddress b.p3_table + 510 * 8) eax
  { s with eax := eax, mem := mem }

/-- The loop `.map_pd_table`. -/
def mapPdTable : ℕ → StartCpu → Option StartCpu
  | 0, _ => none
  | fuel + 1, s =>
    let eax := s.eax ||| PRESENT_WRITE
    let mem := movDword s.mem (lowAddress b.p2_table + s.ebx * 8) eax
    let s := { s with eax := eax + 0x1000, ebx := s.ebx + 1, mem := mem }
    if s.ebx ≠ PD_LOOP_LIMIT then mapPdTable fuel s else some s

/-- The loop `.map_pt_table`: `mul` leaves its product in `edx` and `eax`. -/
def mapPtTable : ℕ → StartCpu → Option StartCpu
  | 0, _ => none
  | fuel + 1, s =>
    let product : BitVec 64 := 0x1000 * s.ecx.setWidth 64
    let eax := product.setWidth 32 ||| PRESENT_WRITE
    let mem := movDword s.mem (lowAddress b.pt_tables + s.ecx * 8) eax
    let s := { s with
      eax := eax, edx := (product >>> 32).setWidth 32, ecx := s.ecx + 1, mem := mem }
    if s.ecx ≠ LOOP_LIMIT then mapPtTable fuel s else some s

/-- From the loops to the jump: paging off, PAE, `rdmsr` and `wrmsr` of the extended feature
register, `cr3`, and paging on. -/
def enterLongMode (s : StartCpu) : StartCpu :=
  let ebx := s.cr0 &&& ~~~(1#32 <<< 31)
  let edx := s.cr4 ||| 1#32 <<< 5
  let s := { s with ebx := ebx, cr0 := ebx, cr4 := edx }
  let s := { s with
    ecx := 0xC0000080, eax := s.efer.setWidth 32, edx := (s.efer >>> 32).setWidth 32 }
  let eax := s.eax ||| 1#32 <<< 8
  let s := { s with efer := s.edx.setWidth 64 <<< 32 ||| eax.setWidth 64 }
  let eax := lowAddress b.p4_table
  let s := { s with eax := eax, cr3 := eax }
  let ebx := s.ebx ||| (1#32 <<< 31 ||| 1#32 <<< 0)
  { s with ebx := ebx, cr0 := ebx }

/-- `start`. -/
def start (fuel : ℕ) (s : StartCpu) : Option StartCpu := do
  let s := linkTables b { s with edi := s.ebx, esi := s.eax }
  let s ← mapPdTable b fuel { s with ebx := 0, eax := lowAddress b.pt_tables }
  let s ← mapPtTable b fuel { s with ecx := 0 }
  some (enterLongMode b s)

end Code

/-- The words of a memory, by frame. -/
def wordsOf (m : ByteMemory) : PhysMem := fun f i => load 8 m (f * 4096 + 8 * i)

/-- Paging is on, in four levels from `p4_table`. -/
structure InLongMode (b : BootImage) (s : StartCpu) : Prop where
  protection : s.cr0.getLsbD 0 = true
  paging : s.cr0.getLsbD 31 = true
  extended : s.cr4.getLsbD 5 = true
  long : s.efer.getLsbD 8 = true
  base : s.cr3.toNat = b.p4_table * 4096

/-- The loader has cleared the tables. -/
def Cleared (b : BootImage) (m : ByteMemory) : Prop :=
  ∀ a, b.p4_table * 4096 ≤ a → a < (b.fbb_pt_tables + 4) * 4096 → m a = 0

/-- The memory in which the entries from `k` to `n - 1` of the tables at `f₀` are links to
consecutive frames, entry 0 to `g₀`. -/
def withLinks (M : PhysMem) (f₀ g₀ k n : ℕ) : PhysMem := fun f i =>
  if f₀ ≤ f ∧ k ≤ (f - f₀) * 512 + i ∧ (f - f₀) * 512 + i < n
  then BootImage.link (g₀ + ((f - f₀) * 512 + i)) else M f i

variable {b : BootImage} {m : ByteMemory} {M : PhysMem} {s : StartCpu} {a v : BitVec 32}
  {f g k n f₀ g₀ fuel : ℕ} {i : Fin 512}

/-! ## Entries -/

theorem link_eq_add : BootImage.link f = f * 4096 + 3 := by
  rw [BootImage.link, Nat.or_assoc]
  exact mul_or_of_lt (k := 12) (by decide)

theorem lowAddress_toNat (hf : f < 2^20) : (lowAddress f).toNat = f * 4096 := by
  rw [lowAddress, BitVec.toNat_ofNat]
  exact Nat.mod_eq_of_lt (by omega)

/-- The flags make a link of an address, and a link stays what it is. -/
theorem or_flags (h : a.toNat = f * 4096 ∨ a.toNat = BootImage.link f) :
    (a ||| PRESENT_WRITE).toNat = BootImage.link f := by
  rw [BitVec.toNat_or]
  rcases h with h | h
  · rw [h, BootImage.link, Nat.or_assoc]
    rfl
  · rw [h, BootImage.link, Nat.or_assoc (f * 4096) 1 2, Nat.or_assoc]
    rfl

/-- The address of an entry. -/
theorem entryAddress (hf : f < 2^20) {x : BitVec 32} (hx : x.toNat = 8 * k)
    (hlt : f * 4096 + 8 * k < 2^32) : (lowAddress f + x).toNat = f * 4096 + 8 * k := by
  rw [BitVec.toNat_add, lowAddress_toNat hf, hx]
  exact Nat.mod_eq_of_lt hlt

/-- A store of four bytes is one of the whole entry when the upper four are 0. -/
theorem wordsOf_movDword (ha : a.toNat = f * 4096 + 8 * i) (hupper : wordsOf m f i < 2^32) :
    wordsOf (movDword m a v) = (wordsOf m).set f i v.toNat := by
  have hv := v.isLt
  have hsplit : ∀ (m : ByteMemory) x, load 8 m x = load 4 m x + 256^4 * load 4 m (x + 4) :=
    fun m x => load_add (n := 4) (k := 4)
  have hzero : load 4 m (f * 4096 + 8 * i + 4) = 0 := by
    unfold wordsOf at hupper
    rw [hsplit] at hupper
    omega
  funext g j
  unfold wordsOf movDword PhysMem.set
  rw [ha]
  by_cases hg : g = f
  · subst hg
    rw [Function.update_self]
    by_cases hj : j = i
    · subst hj
      rw [Function.update_self, hsplit, load_store_self, load_store_of_apart (by omega), hzero]
      omega
    · have hne : j.val ≠ i.val := fun heq => hj (Fin.ext heq)
      rw [Function.update_of_ne hj]
      exact load_store_of_apart (by omega)
  · have hi := i.isLt
    have hj := j.isLt
    rw [Function.update_of_ne hg]
    exact load_store_of_apart (by omega)

/-- No entry of the tables uses its upper four bytes. -/
def Narrow (b : BootImage) (M : PhysMem) : Prop :=
  ∀ f i, b.p4_table ≤ f → f < b.fbb_pt_tables + 4 → M f i < 2^32

theorem Narrow.movDword (h : Narrow b (wordsOf m)) (hlo : b.p4_table ≤ f)
    (hhi : f < b.fbb_pt_tables + 4) (ha : a.toNat = f * 4096 + 8 * i) :
    wordsOf (movDword m a v) = (wordsOf m).set f i v.toNat ∧
      Narrow b (wordsOf (Potatos.movDword m a v)) := by
  have heq : wordsOf (Potatos.movDword m a v) = (wordsOf m).set f i v.toNat :=
    wordsOf_movDword ha (h f i hlo hhi)
  refine ⟨heq, fun g j hg hg' => ?_⟩
  rw [heq, PhysMem.set]
  by_cases hgf : g = f
  · subst hgf
    rw [Function.update_self]
    by_cases hj : j = i
    · subst hj
      rw [Function.update_self]
      exact v.isLt
    · rw [Function.update_of_ne hj]
      exact h g j hg hg'
  · rw [Function.update_of_ne hgf]
    exact h g j hg hg'

/-! ## The loops -/

theorem withLinks_step (M : PhysMem) (f₀ g₀ : ℕ) (hk : k < n) :
    withLinks (M.set (f₀ + k / 512) ⟨k % 512, by omega⟩ (BootImage.link (g₀ + k))) f₀ g₀ (k + 1) n =
      withLinks M f₀ g₀ k n := by
  funext f i
  have hi := i.isLt
  unfold withLinks PhysMem.set
  by_cases hf : f = f₀ + k / 512
  · subst hf
    rw [Function.update_self]
    by_cases hslot : i.val = k % 512
    · have hindex : (f₀ + k / 512 - f₀) * 512 + i.val = k := by omega
      rw [if_neg (by omega), if_pos (by omega), hindex]
      rw [show i = ⟨k % 512, by omega⟩ from Fin.ext hslot, Function.update_self]
    · have hne : i ≠ ⟨k % 512, by omega⟩ := fun heq => hslot (congrArg Fin.val heq)
      rw [Function.update_of_ne hne]
      exact if_congr (by omega) rfl rfl
  · rw [Function.update_of_ne hf]
    exact if_congr (by omega) rfl rfl

theorem withLinks_done : withLinks M f₀ g₀ n n = M := by
  funext f i
  unfold withLinks
  rw [if_neg (by omega)]

/-- `.map_pd_table` from its iteration `k` on. -/
theorem mapPdTable_spec (fuel : ℕ) (h : Narrow b (wordsOf s.mem)) (hebx : s.ebx.toNat = k)
    (hk : k < 2) (heax : (s.eax ||| PRESENT_WRITE).toNat = BootImage.link (b.pt_tables + k))
    (hfuel : 2 ≤ k + fuel) :
    ∃ s', mapPdTable b fuel s = some s' ∧ s'.edi = s.edi ∧ s'.esi = s.esi ∧
      Narrow b (wordsOf s'.mem) ∧
      wordsOf s'.mem = withLinks (wordsOf s.mem) b.p2_table b.pt_tables k 2 := by
  have hfits := b.fits
  have h2 : b.p2_table = b.p4_table + 2 := rfl
  have hpt : b.pt_tables = b.p4_table + 3 := rfl
  have hfbb : b.fbb_pt_tables = b.p4_table + 7 := rfl
  induction fuel generalizing k s with
  | zero => omega
  | succ fuel ih =>
    have hoffset : (s.ebx * 8).toNat = 8 * k := by
      rw [BitVec.toNat_mul, hebx]
      show k * 8 % 2^32 = _
      omega
    have haddr := entryAddress (f := b.p2_table) (by omega) hoffset (by omega)
    obtain ⟨hmem, hnarrow⟩ := h.movDword (f := b.p2_table) (i := ⟨k, by omega⟩)
      (v := s.eax ||| PRESENT_WRITE) (by omega) (by omega) haddr
    rw [heax] at hmem
    have hnext : (s.ebx + 1).toNat = k + 1 := by
      rw [BitVec.toNat_add, hebx]
      show (k + 1) % 2^32 = _
      omega
    have hstep := withLinks_step (wordsOf s.mem) b.p2_table b.pt_tables hk
    have hslot : (⟨k % 512, by omega⟩ : Fin 512) = ⟨k, by omega⟩ :=
      Fin.ext (Nat.mod_eq_of_lt (by omega))
    rw [hslot, show b.p2_table + k / 512 = b.p2_table by omega, ← hmem] at hstep
    rw [mapPdTable]
    dsimp only
    by_cases hend : s.ebx + 1 = PD_LOOP_LIMIT
    · have hk1 : k + 1 = 2 := by rw [← hnext, hend]; rfl
      rw [if_neg (not_not.mpr hend)]
      rw [hk1, withLinks_done] at hstep
      exact ⟨_, rfl, rfl, rfl, hnarrow, hstep⟩
    · have hne : k + 1 ≠ 2 := fun heq => hend (BitVec.eq_of_toNat_eq (by rw [hnext, heq]; rfl))
      rw [if_pos hend]
      -- The next link is a page further.
      have hlink : ((s.eax ||| PRESENT_WRITE) + 0x1000).toNat =
          BootImage.link (b.pt_tables + (k + 1)) := by
        have hpage : (0x1000 : BitVec 32).toNat = 4096 := by decide
        rw [BitVec.toNat_add, heax, hpage, link_eq_add, link_eq_add, Nat.mod_eq_of_lt (by omega)]
        omega
      obtain ⟨s', hrun, hedi, hesi, hnarrow', hwords⟩ := ih (k := k + 1)
        (s := { s with
          eax := (s.eax ||| PRESENT_WRITE) + 0x1000
          ebx := s.ebx + 1
          mem := movDword s.mem (lowAddress b.p2_table + s.ebx * 8) (s.eax ||| PRESENT_WRITE) })
        hnarrow hnext (by omega)
        (or_flags (Or.inr hlink)) (by omega)
      exact ⟨s', hrun, hedi, hesi, hnarrow', hwords.trans hstep⟩

/-- `.map_pt_table` from its iteration `k` on. -/
theorem mapPtTable_spec (fuel : ℕ) (h : Narrow b (wordsOf s.mem)) (hecx : s.ecx.toNat = k)
    (hk : k < 1024) (hfuel : 1024 ≤ k + fuel) :
    ∃ s', mapPtTable b fuel s = some s' ∧ s'.edi = s.edi ∧ s'.esi = s.esi ∧
      wordsOf s'.mem = withLinks (wordsOf s.mem) b.pt_tables 0 k 1024 := by
  have hfits := b.fits
  have hpt : b.pt_tables = b.p4_table + 3 := rfl
  have hfbb : b.fbb_pt_tables = b.p4_table + 7 := rfl
  induction fuel generalizing k s with
  | zero => omega
  | succ fuel ih =>
    have hoffset : (s.ecx * 8).toNat = 8 * k := by
      rw [BitVec.toNat_mul, hecx]
      show k * 8 % 2^32 = _
      omega
    have haddr := entryAddress (f := b.pt_tables) (by omega) hoffset (by omega)
    have hproduct : ((0x1000 * s.ecx.setWidth 64 : BitVec 64).setWidth 32).toNat = k * 4096 := by
      rw [BitVec.toNat_setWidth, BitVec.toNat_mul, BitVec.toNat_setWidth, hecx]
      show 4096 * (k % 2^64) % 2^64 % 2^32 = _
      omega
    have hlink := or_flags (Or.inl hproduct)
    -- Entry `k` of the tables together.
    obtain ⟨hmem, hnarrow⟩ := h.movDword (f := b.pt_tables + k / 512)
      (i := ⟨k % 512, by omega⟩)
      (v := (0x1000 * s.ecx.setWidth 64 : BitVec 64).setWidth 32 ||| PRESENT_WRITE) (by omega)
      (by omega) (a := lowAddress b.pt_tables + s.ecx * 8) (by
        rw [haddr]
        show b.pt_tables * 4096 + 8 * k = (b.pt_tables + k / 512) * 4096 + 8 * (k % 512)
        omega)
    rw [hlink] at hmem
    have hnext : (s.ecx + 1).toNat = k + 1 := by
      rw [BitVec.toNat_add, hecx]
      show (k + 1) % 2^32 = _
      omega
    have hstep := withLinks_step (wordsOf s.mem) b.pt_tables 0 hk
    rw [Nat.zero_add, ← hmem] at hstep
    rw [mapPtTable]
    dsimp only
    by_cases hend : s.ecx + 1 = LOOP_LIMIT
    · have hk1 : k + 1 = 1024 := by rw [← hnext, hend]; rfl
      rw [if_neg (not_not.mpr hend)]
      rw [hk1, withLinks_done] at hstep
      exact ⟨_, rfl, rfl, rfl, hstep⟩
    · have hne : k + 1 ≠ 1024 := fun heq => hend (BitVec.eq_of_toNat_eq (by rw [hnext, heq]; rfl))
      rw [if_pos hend]
      obtain ⟨s', hrun, hedi, hesi, hwords⟩ := ih (k := k + 1) (s := { s with
          eax := (0x1000 * s.ecx.setWidth 64 : BitVec 64).setWidth 32 ||| PRESENT_WRITE
          edx := ((0x1000 * s.ecx.setWidth 64 : BitVec 64) >>> 32).setWidth 32
          ecx := s.ecx + 1
          mem := movDword s.mem (lowAddress b.pt_tables + s.ecx * 8)
            ((0x1000 * s.ecx.setWidth 64 : BitVec 64).setWidth 32 ||| PRESENT_WRITE) })
        hnarrow hnext (by omega) (by omega)
      exact ⟨s', hrun, hedi, hesi, hwords.trans hstep⟩

/-! ## The whole code -/

theorem Cleared.words (h : Cleared b m) (hlo : b.p4_table ≤ f) (hhi : f < b.fbb_pt_tables + 4) :
    wordsOf m f i = 0 := by
  have hi := i.isLt
  have hstart : b.p4_table * 4096 ≤ f * 4096 := Nat.mul_le_mul_right 4096 hlo
  have hend : (f + 1) * 4096 ≤ (b.fbb_pt_tables + 4) * 4096 := Nat.mul_le_mul_right 4096 hhi
  apply load_of_zero
  intro x hlo' hhi'
  exact h x (by linarith) (by linarith)

/-- The entries of `p4_table` and `p3_table`. -/
theorem linkTables_spec (h : Cleared b s.mem) :
    Narrow b (wordsOf (linkTables b s).mem) ∧
      wordsOf (linkTables b s).mem = (((((wordsOf s.mem).set b.p4_table 0
        (BootImage.link b.p3_table)).set b.p4_table 511 (BootImage.link b.p3_table)).set b.p4_table
        510 (BootImage.link b.p4_table)).set b.p3_table 0 (BootImage.link b.p2_table)).set
        b.p3_table 510 (BootImage.link b.p2_table) := by
  have hfits := b.fits
  have h3 : b.p3_table = b.p4_table + 1 := rfl
  have h2 : b.p2_table = b.p4_table + 2 := rfl
  have hfbb : b.fbb_pt_tables = b.p4_table + 7 := rfl
  have hnarrow : Narrow b (wordsOf s.mem) := by
    intro f i hlo hhi
    rw [h.words hlo hhi]
    norm_num
  have hlink : ∀ f, f ≤ b.p2_table →
      (lowAddress f ||| PRESENT_WRITE).toNat = BootImage.link f :=
    fun f hf => or_flags (Or.inl (lowAddress_toNat (by omega)))
  have haddr : ∀ f x (i : Fin 512), f ≤ b.p3_table → x.toNat = 8 * i.val →
      (lowAddress f + x).toNat = f * 4096 + 8 * i := by
    intro f x i hf hx
    have hi := i.isLt
    exact entryAddress (by omega) hx (by omega)
  -- One store after the other.
  obtain ⟨hmem₁, hnarrow₁⟩ := hnarrow.movDword (f := b.p4_table) (i := 0)
    (v := lowAddress b.p3_table ||| PRESENT_WRITE) (by omega) (by omega)
    (haddr b.p4_table 0 0 (by omega) rfl)
  obtain ⟨hmem₂, hnarrow₂⟩ := hnarrow₁.movDword (f := b.p4_table) (i := 511)
    (v := lowAddress b.p3_table ||| PRESENT_WRITE) (by omega) (by omega)
    (haddr b.p4_table (511 * 8) 511 (by omega) (by decide))
  obtain ⟨hmem₃, hnarrow₃⟩ := hnarrow₂.movDword (f := b.p4_table) (i := 510)
    (v := lowAddress b.p4_table ||| PRESENT_WRITE) (by omega) (by omega)
    (haddr b.p4_table (510 * 8) 510 (by omega) (by decide))
  obtain ⟨hmem₄, hnarrow₄⟩ := hnarrow₃.movDword (f := b.p3_table) (i := 0)
    (v := lowAddress b.p2_table ||| PRESENT_WRITE) (by omega) (by omega)
    (haddr b.p3_table 0 0 (by omega) rfl)
  obtain ⟨hmem₅, hnarrow₅⟩ := hnarrow₄.movDword (f := b.p3_table) (i := 510)
    (v := lowAddress b.p2_table ||| PRESENT_WRITE) (by omega) (by omega)
    (haddr b.p3_table (510 * 8) 510 (by omega) (by decide))
  refine ⟨hnarrow₅, hmem₅.trans ?_⟩
  rw [hmem₄, hmem₃, hmem₂, hmem₁, hlink b.p3_table (by omega), hlink b.p4_table (by omega),
    hlink b.p2_table (by omega)]

theorem withLinks_of_out (h : f < f₀ ∨ n ≤ (f - f₀) * 512 + i) :
    withLinks M f₀ g₀ 0 n f i = M f i := if_neg (by omega)

theorem withLinks_of_in (h : f₀ ≤ f) (h' : (f - f₀) * 512 + i < n) :
    withLinks M f₀ g₀ 0 n f i = BootImage.link (g₀ + ((f - f₀) * 512 + i)) :=
  if_pos ⟨h, Nat.zero_le _, h'⟩

theorem set_of_ne {i j : Fin 512} {v : ℕ} (h : g ≠ f ∨ j ≠ i) : M.set f i v g j = M g j := by
  unfold PhysMem.set
  by_cases hg : g = f
  · subst hg
    rw [Function.update_self, Function.update_of_ne (h.resolve_left (fun hne => hne rfl))]
  · rw [Function.update_of_ne hg]

theorem set_self {v : ℕ} : M.set f i v f i = v := by
  unfold PhysMem.set
  rw [Function.update_self, Function.update_self]

/-- The stores make `BootImage.tables` of a cleared memory. -/
theorem tables_of_stores
    (hzero : ∀ f i, b.p4_table ≤ f → f < b.fbb_pt_tables + 4 → M f i = 0) :
    withLinks (withLinks ((((((M.set b.p4_table 0 (BootImage.link b.p3_table)).set b.p4_table 511
      (BootImage.link b.p3_table)).set b.p4_table 510 (BootImage.link b.p4_table)).set b.p3_table 0
      (BootImage.link b.p2_table)).set b.p3_table 510 (BootImage.link b.p2_table))) b.p2_table
      b.pt_tables 0 2) b.pt_tables 0 0 1024 = b.tables none M := by
  have h3 : b.p3_table = b.p4_table + 1 := rfl
  have h2 : b.p2_table = b.p4_table + 2 := rfl
  have hpt : b.pt_tables = b.p4_table + 3 := rfl
  have hfbb : b.fbb_pt_tables = b.p4_table + 7 := rfl
  funext f i
  have hi := i.isLt
  unfold BootImage.tables
  by_cases hf4 : f = b.p4_table
  · subst hf4
    rw [withLinks_of_out (by omega), withLinks_of_out (by omega), set_of_ne (Or.inl (by omega)),
      set_of_ne (Or.inl (by omega)), if_pos rfl]
    by_cases h510 : i = 510
    · subst h510
      rw [set_self, if_neg (by decide), if_pos rfl]
    rw [set_of_ne (Or.inr h510)]
    by_cases h511 : i = 511
    · subst h511
      rw [set_self, if_pos (Or.inr rfl)]
    rw [set_of_ne (Or.inr h511)]
    by_cases h0 : i = 0
    · subst h0
      rw [set_self, if_pos (Or.inl rfl)]
    rw [set_of_ne (Or.inr h0), if_neg (fun h => h.elim h0 h511), if_neg h510,
      hzero _ _ (by omega) (by omega)]
  rw [if_neg hf4]
  by_cases hf3 : f = b.p3_table
  · subst hf3
    rw [withLinks_of_out (by omega), withLinks_of_out (by omega), if_pos rfl]
    by_cases h510 : i = 510
    · subst h510
      rw [set_self, if_pos (Or.inr rfl)]
    rw [set_of_ne (Or.inr h510)]
    by_cases h0 : i = 0
    · subst h0
      rw [set_self, if_pos (Or.inl rfl)]
    rw [set_of_ne (Or.inr h0), set_of_ne (Or.inl hf4), set_of_ne (Or.inl hf4),
      set_of_ne (Or.inl hf4), if_neg (fun h => h.elim h0 h510), hzero _ _ (by omega) (by omega)]
  -- The rest is as the loops left it.
  have hother : ∀ j, ((((((M.set b.p4_table 0 (BootImage.link b.p3_table)).set b.p4_table 511
      (BootImage.link b.p3_table)).set b.p4_table 510 (BootImage.link b.p4_table)).set b.p3_table 0
      (BootImage.link b.p2_table)).set b.p3_table 510 (BootImage.link b.p2_table))) f j =
        M f j := by
    intro j
    rw [set_of_ne (Or.inl hf3), set_of_ne (Or.inl hf3), set_of_ne (Or.inl hf4),
      set_of_ne (Or.inl hf4), set_of_ne (Or.inl hf4)]
  rw [if_neg hf3]
  by_cases hf2 : f = b.p2_table
  · subst hf2
    rw [withLinks_of_out (by omega), if_pos rfl]
    by_cases hlow : i.val < 2
    · rw [withLinks_of_in (le_refl _) (by omega)]
      have hcases : i = 0 ∨ i = 1 := by omega
      rcases hcases with rfl | rfl
      · rw [if_pos rfl]
        simp
      · rw [if_neg (by decide), if_pos rfl]
        simp
    · have h0 : i ≠ 0 := by rintro rfl; exact hlow (by decide)
      have h1 : i ≠ 1 := by rintro rfl; exact hlow (by decide)
      rw [withLinks_of_out (by omega), hother, if_neg h0, if_neg h1,
        if_neg (fun h => by cases h.2), hzero _ _ (by omega) (by omega)]
  rw [if_neg hf2]
  by_cases hfpt : f = b.pt_tables
  · subst hfpt
    rw [withLinks_of_in (le_refl _) (by omega), if_pos rfl]
    simp
  rw [if_neg hfpt]
  by_cases hfpt1 : f = b.pt_tables + 1
  · subst hfpt1
    rw [withLinks_of_in (by omega) (by omega), if_pos rfl]
    simp
  rw [if_neg hfpt1, if_neg (fun h => by cases h.2), withLinks_of_out (by omega),
    withLinks_of_out (by omega), hother]
  split_ifs with hfree
  · exact hzero _ _ (by omega) (by omega)
  · rfl

/-- Whatever the registers were, the processor is then in long mode. -/
theorem enterLongMode_spec : InLongMode b (enterLongMode b s) := by
  have hfits := b.fits
  constructor
  · simp [enterLongMode]
  · simp [enterLongMode]
  · simp [enterLongMode]
  · simp [enterLongMode]
  · exact lowAddress_toNat (by omega)

/-- On a memory whose `.bss` is cleared, `start` leaves the boot tables, with the rest as it was,
long mode on them, and the address and the magic number of the multiboot data. -/
theorem start_tables (fuel : ℕ) (h : Cleared b s.mem) (hfuel : 1024 ≤ fuel) :
    ∃ s', start b fuel s = some s' ∧ InLongMode b s' ∧ s'.edi = s.ebx ∧ s'.esi = s.eax ∧
      wordsOf s'.mem = b.tables none (wordsOf s.mem) := by
  have hfits := b.fits
  have hpt : b.pt_tables = b.p4_table + 3 := rfl
  obtain ⟨hnarrow, hlinks⟩ := linkTables_spec (s := { s with edi := s.ebx, esi := s.eax }) h
  obtain ⟨s₁, hrun₁, hedi₁, hesi₁, hnarrow₁, hwords₁⟩ := mapPdTable_spec fuel (k := 0)
    (s := { linkTables b { s with edi := s.ebx, esi := s.eax } with
      ebx := 0, eax := lowAddress b.pt_tables }) hnarrow rfl (by omega)
    (or_flags (Or.inl (lowAddress_toNat (by omega)))) (by omega)
  obtain ⟨s₂, hrun₂, hedi₂, hesi₂, hwords₂⟩ := mapPtTable_spec fuel (k := 0)
    (s := { s₁ with ecx := 0 }) hnarrow₁ rfl (by omega) (by omega)
  refine ⟨enterLongMode b s₂, ?_, enterLongMode_spec, ?_, ?_, ?_⟩
  · rw [start, hrun₁, Option.bind_eq_bind, Option.bind_some, hrun₂, Option.bind_some]
  · exact hedi₂.trans hedi₁
  · exact hesi₂.trans hesi₁
  · show wordsOf s₂.mem = _
    rw [hwords₂, hwords₁, hlinks]
    exact tables_of_stores (fun f i hlo hhi => h.words hlo hhi)

end Potatos
