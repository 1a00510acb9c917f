import Potatos.Console.Format

/-!
# What `printf` and `printfs` read of the format

The loop over the format advances its index once for a character, and once more behind a `%`. It
looks for the zero only where a pass begins, and so a `%` that is the last character takes the zero
for its conversion, and the next pass begins behind it (`formatLoop_reads`). The index is an `int`.

Both stay inside the format if and only if a character follows every `%` that starts a conversion,
and an `int` can count the bytes (`printf_stays_inside_iff`).
-/

namespace Potatos

/-- A call on a format of `length` characters returns, and reads no byte of the format beyond the
zero that ends it. Every index that it reads at is a value of the `int` that counts them. -/
def StaysInside (call : ℕ → Option Formatted) (length : ℕ) : Prop :=
  ∃ fuel o, call fuel = some o ∧ ∀ r ∈ o.reads, r ≤ length ∧ r < 2^31

variable {cstring : BitVec 64 → List (BitVec 8)} {format : ℕ → BitVec 8} {args : ℕ → BitVec 64}
  {k : Conversions} {str : List (BitVec 8)} {fuel i n : ℕ} {o : Formatted}

/-! ## One pass of the loop -/

/-- What one pass does: it ends at the zero, it writes a character, or it writes a conversion. -/
theorem formatLoop_cases (h : k.formatLoop cstring format args (fuel + 1) i n = some o) :
    (format i = 0 ∧ o.reads = [i]) ∨
      (format i ≠ 0 ∧ format i ≠ chr '%' ∧ ∃ rest,
        k.formatLoop cstring format args fuel (i + 1) n = some rest ∧
          o.reads = i :: rest.reads) ∨
      (format i = chr '%' ∧ ∃ rest n',
        k.formatLoop cstring format args fuel (i + 2) n' = some rest ∧
          o.reads = i :: (i + 1) :: rest.reads) := by
  rw [Conversions.formatLoop] at h
  split_ifs at h with hend hpercent
  · obtain rfl := Option.some.inj h
    exact Or.inl ⟨hend, rfl⟩
  · rw [Option.bind_eq_bind, Option.bind_eq_some_iff] at h
    obtain ⟨⟨bytes, taken⟩, -, h⟩ := h
    obtain ⟨rest, hrest, h⟩ := Option.bind_eq_some_iff.mp h
    obtain rfl := Option.some.inj h
    exact Or.inr (Or.inr ⟨hpercent, rest, n + taken, hrest, rfl⟩)
  · rw [Option.bind_eq_bind, Option.bind_eq_some_iff] at h
    obtain ⟨rest, hrest, h⟩ := h
    obtain rfl := Option.some.inj h
    exact Or.inr (Or.inl ⟨hend, hpercent, rest, hrest, rfl⟩)

/-- A pass reads first at its index. -/
theorem formatLoop_reads_head (h : k.formatLoop cstring format args fuel i n = some o) :
    i ∈ o.reads := by
  obtain _ | fuel := fuel
  · cases h
  · obtain ⟨-, hreads⟩ | ⟨-, -, rest, -, hreads⟩ | ⟨-, rest, n', -, hreads⟩ := formatLoop_cases h
    all_goals exact hreads ▸ List.mem_cons_self ..

/-! ## The whole string -/

/-- The loop reads the string and its zero from left to right. Then it ends, or it goes on behind
the zero if a `%` was the last character. -/
theorem formatLoop_reads (hstr : StringAt format i str)
    (h : k.formatLoop cstring format args fuel i n = some o) :
    ∃ beyond, o.reads = List.range' i (str.length + 1) ++ beyond ∧
      (Complete str → beyond = []) ∧ (¬ Complete str → i + str.length + 1 ∈ beyond) := by
  induction str using List.twoStepInduction generalizing i n fuel o with
  | nil =>
    obtain _ | fuel := fuel
    · cases h
    have hend : format i = 0 := hstr
    rw [formatLoop_end hend] at h
    obtain rfl := Option.some.inj h
    exact ⟨[], rfl, fun _ => rfl, fun hnot => absurd trivial hnot⟩
  | singleton b =>
    obtain ⟨hb, hi, hend⟩ := hstr
    obtain _ | fuel := fuel
    · cases h
    obtain ⟨hzero, -⟩ | ⟨-, hb', rest, hrest, hreads⟩ | ⟨hpercent, rest, n', hrest, hreads⟩ :=
      formatLoop_cases h
    · exact absurd (hi.symm.trans hzero) hb
    · obtain _ | fuel := fuel
      · cases hrest
      rw [formatLoop_end hend] at hrest
      obtain rfl := Option.some.inj hrest
      rw [hi] at hb'
      exact ⟨[], hreads, fun _ => rfl, fun hnot => absurd hb' hnot⟩
    · -- The zero has been taken for a conversion.
      rw [hi] at hpercent
      exact ⟨rest.reads, hreads, fun hcomplete => absurd hpercent hcomplete,
        fun _ => formatLoop_reads_head hrest⟩
  | cons_cons b c str ih ih' =>
    obtain ⟨hb, hi, hrest⟩ := hstr
    obtain _ | fuel := fuel
    · cases h
    obtain ⟨hzero, -⟩ | ⟨-, hb', o', ho', hreads⟩ | ⟨hpercent, o', n', ho', hreads⟩ :=
      formatLoop_cases h
    · exact absurd (hi.symm.trans hzero) hb
    · rw [hi] at hb'
      obtain ⟨beyond, ho, hcomplete⟩ := ih' c hrest ho'
      have hlen : i + (b :: c :: str).length + 1 = i + 1 + (c :: str).length + 1 := by
        rw [List.length_cons]
        omega
      rw [Complete, if_neg hb', hlen]
      refine ⟨beyond, ?_, hcomplete⟩
      rw [hreads, ho]
      rfl
    · rw [hi] at hpercent
      obtain ⟨beyond, ho, hcomplete⟩ := ih hrest.2.2 ho'
      have hlen : i + (b :: c :: str).length + 1 = i + 2 + str.length + 1 := by
        rw [List.length_cons, List.length_cons]
        omega
      rw [Complete, if_pos hpercent, hlen]
      refine ⟨beyond, ?_, hcomplete⟩
      rw [hreads, ho]
      rfl

/-- The call stays inside exactly on the formats that the loop reads up to their zero. -/
theorem formatLoop_stays_inside_iff (hk : k.Total) (hstr : StringAt format 0 str) :
    StaysInside (fun fuel => k.formatLoop cstring format args fuel 0 0) str.length ↔
      Complete str ∧ str.length < 2^31 := by
  constructor
  · rintro ⟨fuel, o, ho, hinside⟩
    obtain ⟨beyond, hreads, -, hbeyond⟩ := formatLoop_reads hstr ho
    have hzero : str.length ∈ o.reads := by
      rw [hreads, List.mem_append, List.mem_range'_1]
      omega
    refine ⟨?_, (hinside _ hzero).2⟩
    by_contra hnot
    have hout : 0 + str.length + 1 ∈ o.reads := by
      rw [hreads]
      exact List.mem_append_right _ (hbeyond hnot)
    have hle := (hinside _ hout).1
    omega
  · rintro ⟨hcomplete, hint⟩
    obtain ⟨o, ho⟩ : ∃ o, ∀ fuel, str.length < fuel →
        k.formatLoop cstring format args fuel 0 0 = some o := formatLoop_total hk hstr hcomplete
    have hrun := ho _ (Nat.lt_succ_self _)
    refine ⟨_, o, hrun, fun r hr => ?_⟩
    obtain ⟨beyond, hreads, hend, -⟩ := formatLoop_reads hstr hrun
    rw [hreads, hend hcomplete, List.append_nil, List.mem_range'_1] at hr
    omega

/-- `printf` and `printfs` return and read no byte beyond the zero of the format if and only if a
character follows every `%` that starts a conversion, and the format is shorter than 2³¹ bytes. -/
theorem printf_stays_inside_iff (cstring : BitVec 64 → List (BitVec 8)) (format : ℕ → BitVec 8)
    (args : ℕ → BitVec 64) (str : List (BitVec 8)) (hstr : StringAt format 0 str) :
    (StaysInside (printf cstring format args) str.length ↔ Complete str ∧ str.length < 2^31) ∧
      (StaysInside (printfs cstring format args) str.length ↔
        Complete str ∧ str.length < 2^31) :=
  ⟨formatLoop_stays_inside_iff printfConversions_total hstr,
    formatLoop_stays_inside_iff printfsConversions_total hstr⟩

/-- A conversion at the end of the format. -/
theorem printf_stays_inside_iff_number :
    (StaysInside (printf (fun _ => []) ([chr 'n', chr '=', chr '%', chr 'i'].getD · 0)
        (fun _ => 7)) 4 ↔
      Complete [chr 'n', chr '=', chr '%', chr 'i'] ∧ 4 < 2^31) ∧
      (StaysInside (printfs (fun _ => []) ([chr 'n', chr '=', chr '%', chr 'i'].getD · 0)
        (fun _ => 7)) 4 ↔
      Complete [chr 'n', chr '=', chr '%', chr 'i'] ∧ 4 < 2^31) :=
  printf_stays_inside_iff (fun _ => []) _ (fun _ => 7) [chr 'n', chr '=', chr '%', chr 'i']
    ⟨by decide, rfl, by decide, rfl, by decide, rfl, by decide, rfl, rfl⟩

/-- The format of the one character `%`. -/
theorem printf_reads_beyond :
    ¬ ∀ (cstring : BitVec 64 → List (BitVec 8)) (format : ℕ → BitVec 8) (args : ℕ → BitVec 64)
      (str : List (BitVec 8)), StringAt format 0 str →
      StaysInside (printf cstring format args) str.length ∧
        StaysInside (printfs cstring format args) str.length := by
  intro h
  have hstr : StringAt ([chr '%'].getD · 0) 0 [chr '%'] := ⟨by decide, rfl, rfl⟩
  obtain ⟨hprintf, -⟩ := h (fun _ => []) _ (fun _ => 0) [chr '%'] hstr
  have hcomplete : Complete [chr '%'] ∧ [chr '%'].length < 2^31 :=
    (formatLoop_stays_inside_iff printfConversions_total hstr).mp hprintf
  exact absurd hcomplete.1 (by decide)

end Potatos
