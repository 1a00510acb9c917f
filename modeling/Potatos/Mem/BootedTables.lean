import Potatos.Mem.ReadMultiboot
import Potatos.Mem.StartCode

/-!
# What the boot code maps

From `start` to `higher_half`: the tables that the 32-bit code builds, the store of
`kernel_jumper`, and `read_multiboot`, which links the table of the framebuffer for every tag of its
type. `boot_spec` says that the memory is then `BootImage.tables` with the framebuffer of the last
such tag, and what every address outside the self-map is translated to (`bootTranslate`): the first
4 MiB and 2 MiB of the framebuffer are each seen at four places, and nothing else is.
-/

namespace Potatos

open Lib

/-- What `kernel_jumper` stores in `end_of_mapped_memory`. The store has room for 32 bits of the
constant, and the processor extends their sign. -/
def endOfMappedMemory : BitVec 64 :=
  ((511#64 <<< 39 ||| 510#64 <<< 30 ||| 1#64 <<< 21 ||| 511#64 <<< 12).setWidth 32).signExtend 64

section Code

variable (b : BootImage)

/-- `kernel_jumper`, up to `read_multiboot`. The upper halves of the registers are 0. -/
def kernelJumper (s : StartCpu) : Option BootCpu := do
  let mem ← (wordsOf s.mem).store b.p4_table (b.dataFrame * 4096) endOfMappedMemory.toNat
  some {
    rax := s.edi.setWidth 64 + 8
    rbx := s.ebx.setWidth 64
    rcx := s.ecx.setWidth 64
    mem := mem }

/-- From `start` to `higher_half`. -/
def boot (fuel : ℕ) (s : StartCpu) : Option (StartCpu × List (BitVec 64) × BootCpu) := do
  let s ← start b 1024 s
  let s' ← kernelJumper b s
  let r ← readMultiboot b fuel s'
  some (s, r)

end Code

/-- The memory is that of the boot tables, on one that differs from `m₀` in the variables only. -/
def Booted (b : BootImage) (fb : Option ℕ) (m₀ m : PhysMem) : Prop :=
  ∃ data, m = b.tables fb (Function.update m₀ b.dataFrame data)

/-- The framebuffer after a tag. -/
def framebufferAfter (m : PhysMem) (fb : Option ℕ) (x : ℕ × BootTag) : Option ℕ :=
  if x.2.type = 8 then some (wordAt m (x.1 + 8)) else fb

/-- The framebuffer of the last tag that has one. -/
def lastFramebuffer (m : PhysMem) (tags : List (ℕ × BootTag)) : Option ℕ :=
  ((tags.filter (fun x => x.2.type = 8)).getLast?).map (fun x => wordAt m (x.1 + 8))

/-- What the boot tables translate an address to, outside the self-map. -/
def bootTranslate (fb : Option ℕ) (a : ℕ) : Option ℕ :=
  if (field a 39 = 0 ∨ field a 39 = 511) ∧ (field a 30 = 0 ∨ field a 30 = 510) then
    if field a 21 = 0 ∨ field a 21 = 1 then some (a % 2^22)
    else if field a 21 = 488 then fb.map (fun addr => alignToPage addr + a % 2^21)
    else none
  else none

variable {b : BootImage} {m m₀ m₁ : PhysMem} {rest : PhysMem} {fb : Option ℕ} {s s' : BootCpu}
  {a k v f addr fuel : ℕ} {t : BootTag} {ts : List BootTag}

/-! ## The memory -/

theorem tables_of_out (h : f < b.p4_table ∨ b.dataFrame ≤ f) : b.tables fb rest f = rest f := by
  have h3 : b.p3_table = b.p4_table + 1 := rfl
  have h2 : b.p2_table = b.p4_table + 2 := rfl
  have hpt : b.pt_tables = b.p4_table + 3 := rfl
  have hfbb : b.fbb_pt_tables = b.p4_table + 7 := rfl
  have hdata : b.dataFrame = b.p4_table + 11 := rfl
  funext i
  unfold BootImage.tables
  rw [if_neg (by omega), if_neg (by omega), if_neg (by omega), if_neg (by omega),
    if_neg (by omega), if_neg (by omega), if_neg (by omega)]

theorem tables_congr (h : rest f = m f) : b.tables fb rest f = b.tables fb m f := by
  funext i
  unfold BootImage.tables
  rw [h]

/-- A store to one of the variables. -/
theorem Booted.set_data (h : Booted b fb m₀ m) {i : Fin 512} :
    Booted b fb m₀ (m.set b.dataFrame i v) := by
  obtain ⟨data, rfl⟩ := h
  refine ⟨Function.update data i v, ?_⟩
  funext f
  by_cases hf : f = b.dataFrame
  · subst hf
    rw [tables_of_out (Or.inr (le_refl _)), PhysMem.set, Function.update_self, Function.update_self,
      tables_of_out (Or.inr (le_refl _)), Function.update_self]
  · rw [PhysMem.set, Function.update_of_ne hf]
    apply tables_congr
    rw [Function.update_of_ne hf, Function.update_of_ne hf]

theorem Booted.mapped (h : Booted b fb m₀ m) : b.BootMapped m := by
  obtain ⟨data, rfl⟩ := h
  exact BootImage.tables_bootMapped

/-- The frames that the boot code does not touch. -/
theorem Booted.frames (h : Booted b fb m₀ m) (hf : f < b.p4_table ∨ b.dataFrame < f) :
    m f = m₀ f := by
  have hdata : b.dataFrame = b.p4_table + 11 := rfl
  obtain ⟨data, rfl⟩ := h
  rw [tables_of_out (by omega), Function.update_of_ne (by omega)]

/-- The entry in the directory and the filled table link a framebuffer, whatever was linked. -/
theorem tables_framebuffer :
    Function.update ((b.tables fb rest).set b.p2_table 488 (BootImage.link b.fbb_pt_tables))
      b.fbb_pt_tables (fun i => (addr ||| 3) + 4096 * i.val) = b.tables (some addr) rest := by
  have h3 : b.p3_table = b.p4_table + 1 := rfl
  have h2 : b.p2_table = b.p4_table + 2 := rfl
  have hpt : b.pt_tables = b.p4_table + 3 := rfl
  have hfbb : b.fbb_pt_tables = b.p4_table + 7 := rfl
  funext f i
  by_cases hf : f = b.fbb_pt_tables
  · subst hf
    rw [Function.update_self, BootImage.tables, if_neg (by omega), if_neg (by omega),
      if_neg (by omega), if_neg (by omega), if_neg (by omega), if_pos ⟨rfl, rfl⟩]
    rfl
  rw [Function.update_of_ne hf]
  by_cases hslot : f = b.p2_table ∧ i = 488
  · obtain ⟨rfl, rfl⟩ := hslot
    rw [set_self, BootImage.tables, if_neg (by omega), if_neg (by omega), if_pos rfl,
      if_neg (by decide), if_neg (by decide), if_pos ⟨rfl, rfl⟩]
  · have hne : f ≠ b.p2_table ∨ i ≠ 488 := by
      by_cases hf2 : f = b.p2_table
      · exact Or.inr (fun h => hslot ⟨hf2, h⟩)
      · exact Or.inl hf2
    rw [set_of_ne hne]
    unfold BootImage.tables
    by_cases hf2 : f = b.p2_table
    · have hi : i ≠ 488 := hne.resolve_left (fun h => h hf2)
      simp only [hf, hi, false_and, if_false]
    · simp only [hf, hf2, false_and, if_false]

/-! ## The table of the framebuffer -/

theorem or_three (h : k % 4 = 3) : k ||| 3 = k := by
  obtain ⟨q, rfl⟩ : ∃ q, k = q * 2^2 + 3 := ⟨k / 4, by omega⟩
  rw [← mul_or_of_lt (by norm_num : 3 < 2^2), Nat.or_assoc]
  rfl

theorem or_three_mod (k : ℕ) : (k ||| 3) % 4 = 3 := by
  have h := Nat.or_mod_two_pow (a := k) (b := 3) (n := 2)
  have hlow : ∀ j < 4, (j ||| 3 % 2^2) = 3 := by decide
  have hk := hlow (k % 2^2) (Nat.mod_lt _ (by norm_num))
  exact h.trans hk

theorem or_three_lt (h : addr + 2^21 ≤ 2^52) : (addr ||| 3) + 2^21 ≤ 2^52 + 3 := by
  have hquot : (addr ||| 3) / 2^2 = addr / 2^2 := by
    rw [Nat.or_div_two_pow]
    exact Nat.or_zero _
  omega

/-- `.map_fb` from its iteration `k` on, in full. -/
theorem mapFb_fill (hfbb : b.fbb_pt_tables < 1024) (h : b.BootMapped s.mem)
    (haddr : addr + 2^21 ≤ 2^52) (hrcx : s.rcx.toNat = k) (hfuel : k + fuel = 512)
    (hpos : 0 < fuel) (hrbx : (s.rbx ||| 3).toNat = (addr ||| 3) + 4096 * k)
    (hrun : mapFb b fuel s = some s') :
    s'.mem = Function.update s.mem b.fbb_pt_tables (fun i =>
      if k ≤ i.val then (addr ||| 3) + 4096 * i.val else s.mem b.fbb_pt_tables i) := by
  have hlt := or_three_lt haddr
  induction fuel generalizing k s with
  | zero => omega
  | succ fuel ih =>
    have hk : k < 512 := by omega
    have hstore := store_linked (v := (s.rbx ||| 3).toNat) h hfbb (hrcx ▸ hk)
    have hindex : (⟨s.rcx.toNat, hrcx ▸ hk⟩ : Fin 512) = ⟨k, hk⟩ := Fin.ext hrcx
    have hnext : (s.rcx + 1).toNat = k + 1 := by
      rw [BitVec.toNat_add, hrcx]
      exact Nat.mod_eq_of_lt (by show k + 1 < 2^64; omega)
    rw [hindex, hrbx] at hstore
    rw [mapFb] at hrun
    dsimp only at hrun
    rw [hrbx, hstore, Option.bind_eq_bind, Option.bind_some] at hrun
    have hmapped : b.BootMapped (s.mem.set b.fbb_pt_tables ⟨k, hk⟩ ((addr ||| 3) + 4096 * k)) :=
      h.set (Or.inr (Or.inl (le_refl _)))
    by_cases hend : s.rcx + 1 = 512
    · rw [if_neg (not_not.mpr hend)] at hrun
      obtain rfl := Option.some.inj hrun
      have hk1 : k + 1 = 512 := by rw [← hnext, hend]; rfl
      show s.mem.set _ _ _ = _
      unfold PhysMem.set
      congr 1
      funext i
      have hi := i.isLt
      by_cases hik : i = ⟨k, hk⟩
      · subst hik
        rw [Function.update_self, if_pos (le_refl k)]
      · have hne : i.val ≠ k := fun heq => hik (Fin.ext heq)
        rw [Function.update_of_ne hik, if_neg (by omega)]
    · rw [if_pos hend] at hrun
      have hne : k + 1 ≠ 512 := by
        intro heq
        apply hend
        apply BitVec.eq_of_toNat_eq
        rw [hnext, heq]
        rfl
      -- The next address is a page further, and has the flags.
      have hsum : ((s.rbx ||| 3) + 0x1000).toNat = (addr ||| 3) + 4096 * (k + 1) := by
        have hpage : (0x1000 : BitVec 64).toNat = 4096 := by decide
        rw [BitVec.toNat_add, hrbx, hpage, Nat.mod_eq_of_lt (by omega)]
        omega
      have hflags : ((s.rbx ||| 3) + 0x1000 ||| 3).toNat = (addr ||| 3) + 4096 * (k + 1) := by
        have hmod := or_three_mod addr
        rw [BitVec.toNat_or, hsum]
        exact or_three (by omega)
      have hrest := ih (k := k + 1) (s := ⟨s.rax, (s.rbx ||| 3) + 0x1000, s.rcx + 1,
        s.mem.set b.fbb_pt_tables ⟨k, hk⟩ ((addr ||| 3) + 4096 * k)⟩) hmapped hnext
        (by omega) (by omega) hflags hrun
      refine hrest.trans ((Function.update_idem _ _ _).trans
        (congrArg (Function.update s.mem b.fbb_pt_tables) (funext fun i => ?_)))
      by_cases hik : i = ⟨k, hk⟩
      · subst hik
        rw [if_neg (Nat.not_succ_le_self k), if_pos (le_refl k)]
        exact set_self
      · have hne' : i.val ≠ k := fun heq => hik (Fin.ext heq)
        exact if_congr (by omega) rfl (set_of_ne (Or.inr hik))

/-- `.parse_fb_data` links the framebuffer of its tag. -/
theorem parseFbData_booted (hb : b.Low) (h : Booted b fb m₀ s.mem)
    (ha : s.rax.toNat + 8 < 2^22) (hclear : b.p2_table ≠ (s.rax.toNat + 8) / 4096)
    (hdata : b.dataFrame ≠ (s.rax.toNat + 8) / 4096)
    (haddr : wordAt s.mem (s.rax.toNat + 8) + 2^21 ≤ 2^52) (hrun : parseFbData b s = some s') :
    Booted b (some (wordAt s.mem (s.rax.toNat + 8))) m₀ s'.mem := by
  have hrax : (s.rax + 8).toNat = s.rax.toNat + 8 := by
    rw [BitVec.toNat_add]
    exact Nat.mod_eq_of_lt (by show s.rax.toNat + 8 < 2^64; omega)
  -- The variable, the entry of the directory, and the address of the framebuffer.
  obtain ⟨data, hmem⟩ := h.set_data (i := 1) (v := s.rax.toNat)
  have hmapped₁ : b.BootMapped (s.mem.set b.dataFrame 1 s.rax.toNat) :=
    h.mapped.set (Or.inr (Or.inl (Nat.le_add_right _ 4)))
  have hstore₁ : s.mem.store b.p4_table b.multiboot_framebuffer_data s.rax.toNat =
      some (s.mem.set b.dataFrame 1 s.rax.toNat) := store_linked h.mapped hb (by omega : 1 < 512)
  have hlink : (BitVec.ofNat 64 (b.fbb_pt_tables * 4096) ||| 3).toNat =
      BootImage.link b.fbb_pt_tables := by
    have hlow := hb.frames.2
    rw [BitVec.toNat_or, BitVec.toNat_ofNat, Nat.mod_eq_of_lt (by omega), BootImage.link,
      Nat.or_assoc]
    rfl
  have hmapped₂ := hmapped₁.set (v := BootImage.link b.fbb_pt_tables) (i := 488)
    (Or.inr (Or.inr ⟨rfl, by decide⟩))
  have hstore₂ : (s.mem.set b.dataFrame 1 s.rax.toNat).store b.p4_table (linkedAt b.p2_table 488)
      (BootImage.link b.fbb_pt_tables) = some ((s.mem.set b.dataFrame 1 s.rax.toNat).set b.p2_table
        488 (BootImage.link b.fbb_pt_tables)) :=
    store_linked hmapped₁ hb.frames.1 (by omega : 488 < 512)
  have hword : wordAt ((s.mem.set b.dataFrame 1 s.rax.toNat).set b.p2_table 488
      (BootImage.link b.fbb_pt_tables)) (s.rax.toNat + 8) = wordAt s.mem (s.rax.toNat + 8) := by
    unfold wordAt
    rw [set_of_ne (Or.inl hclear.symm), set_of_ne (Or.inl hdata.symm)]
  have hload := load_low hmapped₂ ha
  rw [parseFbData, hstore₁, Option.bind_eq_bind, Option.bind_some] at hrun
  dsimp only at hrun
  rw [hlink, hstore₂, Option.bind_some, hrax, Option.bind_eq_bind, hload, hword,
    Option.bind_some] at hrun
  have hlt := or_three_lt haddr
  have hfill := mapFb_fill hb.frames.2 hmapped₂ (k := 0) haddr rfl rfl (by omega) (by
    rw [BitVec.toNat_or, BitVec.toNat_ofNat, Nat.mod_eq_of_lt (by omega)]
    rfl) hrun
  refine ⟨data, hfill.trans ?_⟩
  dsimp only
  rw [hmem]
  exact (congrArg (Function.update _ b.fbb_pt_tables)
    (funext fun i => if_pos (Nat.zero_le _))).trans tables_framebuffer

/-- The branch of a tag, on the framebuffer. -/
theorem tagItem_booted (hb : b.Low) (h : Booted b fb m₀ s.mem) (hrax : s.rax.toNat = a)
    (ha : a + 8 < 2^22) (houtside : (a + 8) / 4096 < b.p4_table ∨ b.dataFrame < (a + 8) / 4096)
    (hfb : t.type = 8 → wordAt m₀ (a + 8) + 2^21 ≤ 2^52)
    (htype : loadDword b s.mem s.rax = some t.type) (hrun : tagItem b s = some s') :
    Booted b (framebufferAfter m₀ fb (a, t)) m₀ s'.mem := by
  subst hrax
  have h2 : b.p2_table = b.p4_table + 2 := rfl
  have hdata : b.dataFrame = b.p4_table + 11 := rfl
  have hword : wordAt s.mem (s.rax.toNat + 8) = wordAt m₀ (s.rax.toNat + 8) := by
    unfold wordAt
    rw [h.frames houtside]
  -- The other branches store to a variable, or nothing.
  have hstore : ∀ k (hk : k < 512), storeTag b s (linkedAt b.dataFrame k) = some s' →
      Booted b fb m₀ s'.mem := by
    intro k hk hstore
    rw [storeTag, store_linked h.mapped hb hk] at hstore
    obtain rfl := Option.some.inj hstore
    exact h.set_data
  rw [tagItem, htype, Option.bind_eq_bind, Option.bind_some] at hrun
  unfold framebufferAfter
  split_ifs at hrun ⊢ with h8 h6 h4 h14 h15
  · dsimp only
    rw [← hword]
    exact parseFbData_booted hb h ha (by omega) (by omega) (by rw [hword]; exact hfb h8) hrun
  · exact hstore 2 (by omega) hrun
  · exact hstore 3 (by omega) hrun
  · exact hstore 4 (by omega) hrun
  · exact hstore 4 (by omega) hrun
  · obtain rfl := Option.some.inj hrun
    exact h

/-! ## Translation -/

theorem next_p4_none {i : Fin 512} (h0 : ¬ (i = 0 ∨ i = 511)) (h510 : i ≠ 510) :
    (b.tables fb rest).next b.p4_table i = none := by
  apply BootImage.next_of_zero
  rw [BootImage.tables, if_pos rfl, if_neg h0, if_neg h510]

theorem next_p3_none {i : Fin 512} (h0 : ¬ (i = 0 ∨ i = 510)) :
    (b.tables fb rest).next b.p3_table i = none := by
  have hne : b.p3_table ≠ b.p4_table := Nat.succ_ne_self _
  apply BootImage.next_of_zero
  rw [BootImage.tables, if_neg hne, if_pos rfl, if_neg h0]

theorem next_p2_none {i : Fin 512} (h0 : ¬ (i = 0 ∨ i = 1)) (h488 : ¬ (i = 488 ∧ fb.isSome)) :
    (b.tables fb rest).next b.p2_table i = none := by
  have h3 : b.p3_table = b.p4_table + 1 := rfl
  have h2 : b.p2_table = b.p4_table + 2 := rfl
  obtain ⟨hi0, hi1⟩ := not_or.mp h0
  apply BootImage.next_of_zero
  rw [BootImage.tables, if_neg (by omega), if_neg (by omega), if_pos rfl, if_neg hi0, if_neg hi1,
    if_neg h488]

/-- The directory links the table of the framebuffer, and that maps its pages. -/
theorem next_fbb (b : BootImage) (rest : PhysMem) (haddr : addr + 2^21 ≤ 2^52) (j : Fin 512) :
    (b.tables (some addr) rest).next b.p2_table 488 = some b.fbb_pt_tables ∧
      (b.tables (some addr) rest).next b.fbb_pt_tables j = some (addr / 4096 + j) := by
  have hfits := b.fits
  have hj := j.isLt
  have h3 : b.p3_table = b.p4_table + 1 := rfl
  have h2 : b.p2_table = b.p4_table + 2 := rfl
  have hpt : b.pt_tables = b.p4_table + 3 := rfl
  have hfbb : b.fbb_pt_tables = b.p4_table + 7 := rfl
  constructor
  · refine BootImage.next_of_link (by omega) ?_
    rw [BootImage.tables, if_neg (by omega), if_neg (by omega), if_pos rfl, if_neg (by decide),
      if_neg (by decide), if_pos ⟨rfl, rfl⟩]
  · have hentry : b.tables (some addr) rest b.fbb_pt_tables j = (addr ||| 3) + 4096 * j := by
      rw [BootImage.tables, if_neg (by omega), if_neg (by omega), if_neg (by omega),
        if_neg (by omega), if_neg (by omega), if_pos ⟨rfl, rfl⟩]
      rfl
    have hmod := or_three_mod addr
    have hlt := or_three_lt haddr
    have hquot : (addr ||| 3) / 2^12 = addr / 2^12 := by
      rw [Nat.or_div_two_pow]
      exact Nat.or_zero _
    have hpresent : present ((addr ||| 3) + 4096 * j) = true := by
      have hbit : ((addr ||| 3) + 4096 * j.val) &&& 1 = 1 := by
        rw [Nat.and_one_is_mod]
        omega
      rw [present]
      exact bne_iff_ne.mpr (by rw [PT_PRESENT_BIT, Nat.shiftLeft_zero, hbit]; exact one_ne_zero)
    rw [PhysMem.next, hentry, if_pos hpresent, frameOf]
    congr 1
    omega

/-- Outside the self-map, the tables translate exactly as `bootTranslate` says. -/
theorem tables_translate (hfb : ∀ addr, fb = some addr → addr + 2^21 ≤ 2^52)
    (h510 : field a 39 ≠ 510) :
    (b.tables fb rest).translate b.p4_table a = bootTranslate fb a := by
  have h12 := field_val a 12
  have h21 := field_val a 21
  unfold PhysMem.translate PhysMem.walk bootTranslate
  by_cases h39 : field a 39 = 0 ∨ field a 39 = 511
  swap
  · rw [descend_cons, next_p4_none h39 h510, if_neg (fun h => h39 h.1)]
    rfl
  by_cases h30 : field a 30 = 0 ∨ field a 30 = 510
  swap
  · rw [descend_cons, BootImage.next_p4 h39, Option.bind_some, descend_cons, next_p3_none h30,
      if_neg (fun h => h30 h.2)]
    rfl
  rw [descend_cons, BootImage.next_p4 h39, Option.bind_some, descend_cons, BootImage.next_p3 h30,
    Option.bind_some, descend_cons, if_pos ⟨h39, h30⟩]
  by_cases hlow : field a 21 = 0 ∨ field a 21 = 1
  · -- The two page tables, one after the other.
    obtain ⟨k, hk, hfield⟩ : ∃ k, ∃ hk : k < 2, field a 21 = ⟨k, by omega⟩ := by
      rcases hlow with h | h
      · exact ⟨0, by omega, h⟩
      · exact ⟨1, by omega, h⟩
    obtain ⟨hdir, hpage⟩ :
        (b.tables fb rest).next b.p2_table ⟨k, by omega⟩ = some (b.pt_tables + k) ∧
          (b.tables fb rest).next (b.pt_tables + k) (field a 12) =
            some (512 * k + (field a 12).val) := BootImage.next_pt hk (field a 12)
    have hval : a / 2^21 % 512 = k := by rw [← h21, hfield]
    rw [if_pos hlow, hfield, hdir, Option.bind_some, descend_cons, hpage, Option.bind_some]
    have hsum : (512 * k + (field a 12).val) * 4096 + a % 4096 = a % 2^22 := by omega
    exact congrArg some hsum
  rw [if_neg hlow]
  by_cases hfield : field a 21 = 488
  swap
  · rw [next_p2_none hlow (fun h => hfield h.1), if_neg hfield]
    rfl
  rw [if_pos hfield]
  cases hsome : fb with
  | none =>
    rw [next_p2_none hlow (fun h => by cases h.2), Option.bind_none, Option.map_none,
      Option.map_none]
  | some addr =>
    obtain ⟨hdir, hpage⟩ := next_fbb b rest (hfb addr hsome) (field a 12)
    rw [hfield, hdir, Option.bind_some, descend_cons, hpage, Option.bind_some]
    have hsum : (addr / 4096 + (field a 12).val) * 4096 + a % 4096 =
        alignToPage addr + a % 2^21 := by
      unfold alignToPage
      omega
    exact congrArg some hsum

/-! ## The whole boot -/

theorem nextTag_mem (h : nextTag b s = some s') : s'.mem = s.mem := by
  obtain ⟨size, -, hsome⟩ := Option.bind_eq_some_iff.mp h
  obtain rfl := Option.some.inj hsome
  rfl

theorem foldl_framebufferAfter (tags : List (ℕ × BootTag)) :
    tags.foldl (framebufferAfter m) none = lastFramebuffer m tags := by
  induction tags using List.reverseRecOn with
  | nil => rfl
  | append_singleton tags x ih =>
    rw [List.foldl_append, List.foldl_cons, List.foldl_nil, ih]
    unfold framebufferAfter lastFramebuffer
    rw [List.filter_append]
    by_cases h : x.2.type = 8
    · have hlast : [x].filter (fun x => decide (x.2.type = 8)) = [x] :=
        List.filter_cons_of_pos (decide_eq_true h)
      rw [if_pos h, hlast, List.getLast?_concat, Option.map_some]
    · have hlast : [x].filter (fun x => decide (x.2.type = 8)) = [] :=
        List.filter_cons_of_neg (mt of_decide_eq_true h)
      rw [if_neg h, hlast, List.append_nil]

/-- The frames of the block are not the tables, and not the variables. -/
def Outside (b : BootImage) (a : ℕ) (ts : List BootTag) : Prop :=
  ∀ x, a ≤ x → x < terminatorAt a ts + 8 → x / 4096 < b.p4_table ∨ b.dataFrame < x / 4096

/-- The walk over the tags, on the framebuffer. -/
theorem readMultiboot_booted (hb : b.Low) (hblock : TagBlock b m₁ a (t :: ts))
    (hend : terminatorAt a (t :: ts) + 8 ≤ 0x400000) (houtside : Outside b a (t :: ts))
    (hfb : ∀ x ∈ placed a (t :: ts), x.2.type = 8 → wordAt m₀ (x.1 + 8) + 2^21 ≤ 2^52)
    (hwalked : Walked b m₁ s.mem) (h : Booted b fb m₀ s.mem) (hrax : s.rax.toNat = a)
    (hfuel : ts.length < fuel) :
    ∃ visited s', readMultiboot b fuel s = some (visited, s') ∧
      Booted b ((placed a (t :: ts)).foldl (framebufferAfter m₀) fb) m₀ s'.mem := by
  induction ts generalizing a t s fb fuel with
  | nil =>
    obtain ⟨fuel, rfl⟩ : ∃ n, fuel = n + 1 := ⟨fuel - 1, by omega⟩
    obtain ⟨s₁, s₂, hitem, hnext, hrax₂, hwalked₂, -⟩ := visitTag_spec hb hblock hend hwalked hrax
    have hspan := t.le_span
    have hle : a + t.span ≤ terminatorAt a [t] := by
      rw [terminatorAt_cons]
      exact le_terminatorAt
    have hbooted := tagItem_booted hb h hrax (by omega) (houtside _ (by omega) (by omega))
      (hfb (a, t) List.mem_cons_self) (hblock.loads hend hwalked hrax).1 hitem
    rw [terminatorAt_cons] at hend
    obtain ⟨htype, hsize⟩ := hblock.tail.loads hend hwalked₂ hrax₂
    exact ⟨[s.rax], s₂, readMultiboot_halt hitem hnext htype hsize, nextTag_mem hnext ▸ hbooted⟩
  | cons t' ts ih =>
    obtain ⟨fuel, rfl⟩ : ∃ n, fuel = n + 1 := ⟨fuel - 1, by omega⟩
    rw [List.length_cons] at hfuel
    obtain ⟨s₁, s₂, hitem, hnext, hrax₂, hwalked₂, -⟩ := visitTag_spec hb hblock hend hwalked hrax
    have hspan := t.le_span
    have hle : a + t.span ≤ terminatorAt a (t :: t' :: ts) := by
      rw [terminatorAt_cons]
      exact le_terminatorAt
    have hbooted := tagItem_booted hb h hrax (by omega) (houtside _ (by omega) (by omega))
      (hfb (a, t) List.mem_cons_self) (hblock.loads hend hwalked hrax).1 hitem
    rw [← nextTag_mem hnext] at hbooted
    have hrest : Outside b (a + t.span) (t' :: ts) := by
      intro x hlo hhi
      rw [← terminatorAt_cons] at hhi
      exact houtside x (by omega) hhi
    rw [terminatorAt_cons] at hend
    obtain ⟨htype, -⟩ := hblock.tail.loads hend hwalked₂ hrax₂
    obtain ⟨visited, s', hrun, hbooted'⟩ := ih hblock.tail hend hrest
      (fun x hx => hfb x (List.mem_cons_of_mem _ hx)) hwalked₂ hbooted hrax₂
      (by omega : ts.length < fuel)
    refine ⟨s.rax :: visited, s', ?_, hbooted'⟩
    rw [readMultiboot_continue hitem hnext htype t'.type_ne, hrun]
    rfl

/-- The multiboot2 block at `info`: its tags are in the 4 MiB that the boot tables map, outside the
data of the kernel, and every framebuffer is in physical memory. -/
structure MultibootBlock (b : BootImage) (m : PhysMem) (info : ℕ) (ts : List BootTag) : Prop where
  nonempty : ts ≠ []
  aligned : info % 8 = 0
  tags : TagsAt m (info + 8) ts
  outside : Outside b (info + 8) ts
  low : terminatorAt (info + 8) ts + 8 ≤ 0x400000
  framebuffers : ∀ x ∈ placed (info + 8) ts, x.2.type = 8 → wordAt m (x.1 + 8) + 2^21 ≤ 2^52

theorem placed_le {x : ℕ × BootTag} (hx : x ∈ placed a ts) :
    a ≤ x.1 ∧ x.1 + x.2.span ≤ terminatorAt a ts := by
  induction ts generalizing a with
  | nil => cases hx
  | cons t ts ih =>
    rw [terminatorAt_cons]
    rcases List.mem_cons.mp hx with rfl | hx
    · exact ⟨le_refl _, le_terminatorAt⟩
    · have hrest := ih hx
      exact ⟨by omega, hrest.2⟩

/-- The block is where it was after the tables have been built. -/
theorem MultibootBlock.tagBlock {info : ℕ} (h : MultibootBlock b m₀ info ts)
    (hbooted : Booted b fb m₀ m) : TagBlock b m (info + 8) ts where
  aligned := by
    have haligned := h.aligned
    omega
  tags := by
    have hfront : ∀ x type size, info + 8 ≤ x → x < terminatorAt (info + 8) ts + 8 →
        FrontAt m₀ x type size → FrontAt m x type size := by
      intro x type size hlo hhi hfront
      unfold FrontAt wordAt at *
      rw [hbooted.frames (h.outside x hlo hhi)]
      exact hfront
    constructor
    · intro x hx
      have hle := placed_le hx
      have hspan := x.2.le_span
      exact hfront _ _ _ hle.1 (by omega) (h.tags.tags x hx)
    · exact hfront _ _ _ le_terminatorAt (by omega) h.tags.terminator
  clear := by
    intro x hlo hhi
    have hx := h.outside x hlo hhi
    have h2 : b.p2_table = b.p4_table + 2 := rfl
    have hfbb : b.fbb_pt_tables = b.p4_table + 7 := rfl
    have hdata : b.dataFrame = b.p4_table + 11 := rfl
    exact ⟨by omega, by omega, by omega⟩

/-- Every framebuffer of the block is in physical memory, so the last one is. -/
theorem MultibootBlock.lastFramebuffer_le {info : ℕ} (h : MultibootBlock b m info ts)
    (haddr : lastFramebuffer m (placed (info + 8) ts) = some addr) : addr + 2^21 ≤ 2^52 := by
  obtain ⟨x, hx, rfl⟩ := Option.map_eq_some_iff.mp haddr
  obtain ⟨hplaced, htype⟩ := List.mem_filter.mp (List.mem_of_getLast? hx)
  exact h.framebuffers x hplaced (of_decide_eq_true htype)

/-- From a cleared `.bss` and the registers that the loader hands over, the boot code gets to
`higher_half`, in long mode on the boot tables, with the tags in its variables. -/
theorem boot_run {s : StartCpu} (hb : b.Low) (hcleared : Cleared b s.mem)
    (hblock : MultibootBlock b (wordsOf s.mem) s.ebx.toNat ts) (hfuel : ts.length ≤ fuel) :
    ∃ s₁ visited s₂ d, boot b fuel s = some (s₁, visited, s₂) ∧ InLongMode b s₁ ∧
      Booted b (lastFramebuffer (wordsOf s.mem) (placed (s.ebx.toNat + 8) ts)) (wordsOf s.mem)
        s₂.mem ∧
      bootData b s₂.mem =
        (placed (s.ebx.toNat + 8) ts).foldl (fun d x => d.visit x.1 x.2) d := by
  obtain ⟨s₁, hstart, hlong, hedi, -, hwords⟩ := start_tables 1024 hcleared (le_refl _)
  -- The variable of `kernel_jumper` is in the frame behind the tables.
  have hbooted₀ : Booted b none (wordsOf s.mem) (wordsOf s₁.mem) := by
    refine ⟨wordsOf s.mem b.dataFrame, ?_⟩
    rw [Function.update_eq_self, hwords]
  obtain ⟨m₁, hstore, hbooted₁⟩ : ∃ m₁, (wordsOf s₁.mem).store b.p4_table (b.dataFrame * 4096)
      endOfMappedMemory.toNat = some m₁ ∧ Booted b none (wordsOf s.mem) m₁ := by
    refine ⟨_, ?_, hbooted₀.set_data (i := field (b.dataFrame * 4096) 3)
      (v := endOfMappedMemory.toNat)⟩
    rw [PhysMem.store, hbooted₀.mapped.walk hb (Or.inl rfl)]
    rfl
  have hjumper : kernelJumper b s₁ = some ⟨s₁.edi.setWidth 64 + 8, s₁.ebx.setWidth 64,
      s₁.ecx.setWidth 64, m₁⟩ := by
    rw [kernelJumper, hstore]
    rfl
  have hrax : (s₁.edi.setWidth 64 + 8).toNat = s.ebx.toNat + 8 := by
    have hwide : (s.ebx.setWidth 64).toNat = s.ebx.toNat :=
      BitVec.toNat_setWidth_of_le (by norm_num)
    have hlt := s.ebx.isLt
    rw [hedi, BitVec.toNat_add, hwide]
    exact Nat.mod_eq_of_lt (by show s.ebx.toNat + 8 < 2^64; omega)
  obtain ⟨t, ts, rfl⟩ := List.exists_cons_of_ne_nil hblock.nonempty
  rw [List.length_cons] at hfuel
  have hwalked : Walked b m₁ m₁ := ⟨hbooted₁.mapped, fun _ _ _ _ => rfl⟩
  obtain ⟨visited, s₂, hrun, hbooted⟩ := readMultiboot_booted
    (s := ⟨s₁.edi.setWidth 64 + 8, s₁.ebx.setWidth 64, s₁.ecx.setWidth 64, m₁⟩) hb
    (hblock.tagBlock hbooted₁) hblock.low hblock.outside hblock.framebuffers hwalked hbooted₁ hrax
    (by omega : ts.length < fuel)
  obtain ⟨_, s₂', hrun', -, -, hdata⟩ := readMultiboot_run
    (s := ⟨s₁.edi.setWidth 64 + 8, s₁.ebx.setWidth 64, s₁.ecx.setWidth 64, m₁⟩) hb
    (hblock.tagBlock hbooted₁) hblock.low hwalked hrax (by omega : ts.length < fuel)
  obtain ⟨rfl, rfl⟩ := Prod.mk.inj (Option.some.inj (hrun.symm.trans hrun'))
  rw [foldl_framebufferAfter] at hbooted
  refine ⟨s₁, visited, s₂, _, ?_, hlong, hbooted, hdata⟩
  rw [boot, hstart, Option.bind_eq_bind, Option.bind_some, hjumper, Option.bind_eq_bind,
    Option.bind_some, hrun]
  rfl

/-- From a cleared `.bss` and the registers that the loader hands over, the boot code gets to
`higher_half`, in long mode. It has changed its tables and variables only, slot 510 of `p4_table`
maps it to itself, and every address outside that slot is translated as `bootTranslate` says, with
the framebuffer of the last tag that has one. -/
theorem boot_spec {s : StartCpu} (hb : b.Low) (hcleared : Cleared b s.mem)
    (hblock : MultibootBlock b (wordsOf s.mem) s.ebx.toNat ts) (hfuel : ts.length ≤ fuel) :
    ∃ s₁ visited s₂, boot b fuel s = some (s₁, visited, s₂) ∧ InLongMode b s₁ ∧
      (∀ f, f < b.p4_table ∨ b.dataFrame < f → s₂.mem f = wordsOf s.mem f) ∧
      s₂.mem.next b.p4_table 510 = some b.p4_table ∧
      ∀ a, field a 39 ≠ 510 → s₂.mem.translate b.p4_table a =
        bootTranslate (lastFramebuffer (wordsOf s.mem) (placed (s.ebx.toNat + 8) ts)) a := by
  obtain ⟨s₁, visited, s₂, -, hrun, hlong, hbooted, -⟩ := boot_run hb hcleared hblock hfuel
  refine ⟨s₁, visited, s₂, hrun, hlong, fun f hf => hbooted.frames hf, ?_, fun a ha => ?_⟩
  · obtain ⟨data, hmem⟩ := hbooted
    rw [hmem]
    exact BootImage.tables_self
  · obtain ⟨data, hmem⟩ := hbooted
    rw [hmem]
    exact tables_translate (fun _ haddr => hblock.lastFramebuffer_le haddr) ha

/-- A memory with a block at `0x9000`: a memory map, and a framebuffer at `0xFD000000`. -/
def memWithBlock : ByteMemory :=
  store 8 (store 8 (store 8 (store 8 (fun _ => 0) 0x9008 (6 + 20 * 2^32)) 0x9020 (8 + 38 * 2^32))
    0x9028 0xFD000000) 0x9048 (8 * 2^32)

/-- The kernel is at 1 MiB. -/
theorem boot_spec_twoTags : ∃ s₁ visited s₂,
    boot imageAtOneMiB 2 ⟨0x36D76289, 0x9000, 0, 0, 0, 0, 1, 0, 0, 0, memWithBlock⟩ =
        some (s₁, visited, s₂) ∧
      s₂.mem.translate 256 0xFFFFFFFFBD000123 = some 0xFD000123 := by
  have hcleared : Cleared imageAtOneMiB memWithBlock := by
    intro a hlo _
    have hlo' : 0x100000 ≤ a := hlo
    unfold memWithBlock
    rw [store_of_out (by omega), store_of_out (by omega), store_of_out (by omega),
      store_of_out (by omega)]
  have hframe : ∀ x, 0x9008 ≤ x → x < terminatorAt 0x9008 twoTags + 8 → x / 4096 = 9 := by
    intro x hlo hhi
    have hend : terminatorAt 0x9008 twoTags = 0x9048 := rfl
    omega
  have hblock : MultibootBlock imageAtOneMiB (wordsOf memWithBlock) 0x9000 twoTags := {
    nonempty := List.cons_ne_nil _ _
    aligned := by decide
    tags := ⟨by decide +kernel, by decide +kernel⟩
    outside := fun x hlo hhi => by
      rw [hframe x hlo hhi]
      exact Or.inl (by decide)
    low := by decide
    framebuffers := by decide +kernel }
  obtain ⟨s₁, visited, s₂, hrun, -, -, -, htranslate⟩ := boot_spec
    (s := ⟨0x36D76289, 0x9000, 0, 0, 0, 0, 1, 0, 0, 0, memWithBlock⟩)
    (by show 256 + 7 + 4 < 1024; norm_num) hcleared hblock (le_refl _)
  refine ⟨s₁, visited, s₂, hrun, (htranslate 0xFFFFFFFFBD000123 (by decide)).trans ?_⟩
  decide +kernel

end Potatos
