import Potatos.Console.WideNumerals

/-!
# The text of a format

What the loop over a format writes, as a function of the format's string alone (`render`). The text
of two strings behind one another is that of the first and then that of the second, which goes on
with the arguments that the first has left (`render_append`), so a format is read piece by piece:
what is no conversion stands for itself, and `%u`, `%p` and `%s` for a numeral, a pointer and a
string.
-/

namespace Potatos

open Buffer

namespace Conversions

/-- The text of a string from the argument `n` on, and the next argument. -/
def render (k : Conversions) (cstring : BitVec 64 → List (BitVec 8)) (args : ℕ → BitVec 64) :
    List (BitVec 8) → ℕ → Option (List (BitVec 8) × ℕ)
  | [], n => some ([], n)
  | [b], n => some ([b], n)
  | b :: c :: str, n =>
    if b = chr '%' then
      (k.convert cstring c (args n)).bind (fun res =>
        (render k cstring args str (n + res.2)).map (fun r => (res.1 ++ r.1, r.2)))
    else (render k cstring args (c :: str) n).map (fun r => (b :: r.1, r.2))

end Conversions

/-- The bytes of a text. -/
def text (s : String) : List (BitVec 8) := s.toList.map chr

/-- A pointer as `%p` writes it. -/
def pointerText (p : ℕ) : List (BitVec 8) := text "0x" ++ zeroPadded 16 (numeral 16 p)

variable {k : Conversions} {cstring : BitVec 64 → List (BitVec 8)} {format : ℕ → BitVec 8}
  {args : ℕ → BitVec 64} {b c : BitVec 8} {str str' : List (BitVec 8)} {i n m fuel : ℕ}
  {o o' : List (BitVec 8)}

/-- A conversion, and what is behind it. -/
theorem render_convert {res : List (BitVec 8) × ℕ}
    (hres : k.convert cstring c (args n) = some res) :
    k.render cstring args ([chr '%', c] ++ str) n =
      (k.render cstring args str (n + res.2)).map (fun r => (res.1 ++ r.1, r.2)) := by
  show k.render cstring args (chr '%' :: c :: str) n = _
  rw [Conversions.render, if_pos rfl, hres]
  rfl

theorem render_literal (hb : b ≠ chr '%') :
    k.render cstring args (b :: str) n =
      (k.render cstring args str n).map (fun r => (b :: r.1, r.2)) := by
  cases str with
  | nil => rfl
  | cons c str => exact if_neg hb

/-- The loop writes the text of its format. -/
theorem formatLoop_render (hstr : StringAt format i str) (hcomplete : Complete str)
    (hfuel : str.length < fuel) :
    (k.formatLoop cstring format args fuel i n).map Formatted.bytes =
      (k.render cstring args str n).map Prod.fst := by
  obtain ⟨fuel, rfl⟩ := Nat.exists_eq_succ_of_ne_zero (Nat.ne_of_gt (Nat.zero_lt_of_lt hfuel))
  induction str using List.twoStepInduction generalizing i n fuel with
  | nil =>
    rw [formatLoop_end hstr]
    rfl
  | singleton b =>
    obtain ⟨hb, hi, hend⟩ := hstr
    obtain ⟨fuel, rfl⟩ := Nat.exists_eq_succ_of_ne_zero (n := fuel) (by simp at hfuel; omega)
    rw [formatLoop_literal hi hb hcomplete, formatLoop_end hend]
    rfl
  | cons_cons b c str ih ih' =>
    obtain ⟨hb, hi, hrest⟩ := hstr
    rw [List.length_cons, List.length_cons] at hfuel
    obtain ⟨fuel, rfl⟩ := Nat.exists_eq_succ_of_ne_zero (n := fuel) (by omega)
    by_cases hpercent : b = chr '%'
    · have hcomplete' : Complete str := by rwa [Complete, if_pos hpercent] at hcomplete
      subst hpercent
      -- A conversion that writes nothing ends both.
      cases hres : k.convert cstring c (args n) with
      | none =>
        rw [Conversions.formatLoop, if_neg (hi ▸ hb), if_pos hi, hrest.2.1, hres,
          Conversions.render, if_pos rfl, hres]
        rfl
      | some res =>
        have hrun := ih (n := n + res.2) hrest.2.2 hcomplete' fuel (by omega)
        have htext : k.render cstring args ([chr '%', c] ++ str) n = _ := render_convert hres
        rw [List.cons_append, List.cons_append, List.nil_append] at htext
        rw [formatLoop_convert hi (by rw [hrest.2.1, hres]), htext, Option.map_map, Option.map_map]
        have hcongr := congrArg (Option.map (fun bytes => res.1 ++ bytes)) hrun
        rw [Option.map_map, Option.map_map] at hcongr
        exact hcongr
    · have hcomplete' : Complete (c :: str) := by rwa [Complete, if_neg hpercent] at hcomplete
      have hrun := ih' c (n := n) hrest hcomplete' fuel (by rw [List.length_cons]; omega)
      rw [formatLoop_literal hi hb hpercent, render_literal hpercent, Option.map_map,
        Option.map_map]
      have hcongr := congrArg (Option.map (fun bytes => b :: bytes)) hrun
      rw [Option.map_map, Option.map_map] at hcongr
      exact hcongr

/-- The second string goes on with the arguments that the first has left. -/
theorem render_append (hcomplete : Complete str) (h : k.render cstring args str n = some (o, m)) :
    k.render cstring args (str ++ str') n =
      (k.render cstring args str' m).map (fun r => (o ++ r.1, r.2)) := by
  induction str using List.twoStepInduction generalizing n o with
  | nil =>
    obtain ⟨rfl, rfl⟩ := Prod.mk.inj (Option.some.inj h)
    exact Option.map_id'.symm
  | singleton b =>
    obtain ⟨rfl, rfl⟩ := Prod.mk.inj (Option.some.inj h)
    exact render_literal hcomplete
  | cons_cons b c str ih ih' =>
    by_cases hpercent : b = chr '%'
    · have hcomplete' : Complete str := by rwa [Complete, if_pos hpercent] at hcomplete
      subst hpercent
      rw [Conversions.render, if_pos rfl] at h
      obtain ⟨res, hres, hrest⟩ := Option.bind_eq_some_iff.mp h
      obtain ⟨r, hr, heq⟩ := Option.map_eq_some_iff.mp hrest
      obtain ⟨rfl, rfl⟩ := Prod.mk.inj heq
      have htext : k.render cstring args ([chr '%', c] ++ (str ++ str')) n = _ :=
        render_convert hres
      rw [List.cons_append, List.cons_append, List.nil_append] at htext
      rw [List.cons_append, List.cons_append, htext, ih hcomplete' hr, Option.map_map]
      congr 1
      funext r'
      exact Prod.ext (List.append_assoc ..).symm rfl
    · have hcomplete' : Complete (c :: str) := by rwa [Complete, if_neg hpercent] at hcomplete
      rw [render_literal hpercent] at h
      obtain ⟨r, hr, heq⟩ := Option.map_eq_some_iff.mp h
      obtain ⟨rfl, rfl⟩ := Prod.mk.inj heq
      rw [List.cons_append, render_literal hpercent, ih' c hcomplete' hr, Option.map_map]
      rfl

/-- A string without a `%` stands for itself. -/
theorem render_plain (hplain : chr '%' ∉ str) :
    k.render cstring args str n = some (str, n) := by
  induction str with
  | nil => rfl
  | cons b str ih =>
    obtain ⟨hb, hstr⟩ := List.ne_and_not_mem_of_not_mem_cons hplain
    rw [render_literal (Ne.symm hb), ih hstr]
    rfl

theorem complete_plain (hplain : chr '%' ∉ str) : Complete str := by
  induction str using List.twoStepInduction with
  | nil => trivial
  | singleton b => exact Ne.symm (List.ne_of_not_mem_cons hplain)
  | cons_cons b c str ih ih' =>
    obtain ⟨hb, hstr⟩ := List.ne_and_not_mem_of_not_mem_cons hplain
    rw [Complete, if_neg (Ne.symm hb)]
    exact ih' c hstr

/-- What is before a string without a `%`. -/
theorem render_plain_append (hplain : chr '%' ∉ str) :
    k.render cstring args (str ++ str') n =
      (k.render cstring args str' n).map (fun r => (str ++ r.1, r.2)) :=
  render_append (complete_plain hplain) (render_plain hplain)

/-! ## Conversions -/

/-- `%u` of a value writes the numeral of its low 32 bits. -/
theorem convert_unsigned (k : Conversions) (cstring : BitVec 64 → List (BitVec 8))
    (arg : BitVec 64) : k.convert cstring (chr 'u') arg =
      some (numeral 10 (arg.toNat % 2^32), 1) := by
  have hnat : (arg.setWidth 32).toNat = arg.toNat % 2^32 := BitVec.toNat_setWidth 32 arg
  have hnumeral : itoa64 (arg.toNat % 2^32) 10 = some (numeral 10 (arg.toNat % 2^32)) :=
    itoa64_eq (by omega) (by omega)
  show (itoa64 (arg.setWidth 32).toNat 10).map _ = _
  rw [hnat, hnumeral]
  rfl

theorem convert_string (k : Conversions) (cstring : BitVec 64 → List (BitVec 8))
    (arg : BitVec 64) : k.convert cstring (chr 's') arg = some (cstring arg, 1) := rfl

/-- A list as the string that it is. -/
theorem stringAt_getD (hne : 0 ∉ str) : StringAt (str.getD · 0) 0 str := by
  have hdrop : ∀ i l, str.drop i = l → StringAt (str.getD · 0) i l := by
    intro i l
    induction l generalizing i with
    | nil =>
      intro hl
      exact List.getD_eq_default _ _ (List.drop_eq_nil_iff.mp hl)
    | cons b l ih =>
      intro hl
      have hb : str.getD i 0 = b := by
        have hget : (str.drop i)[0]? = str[i]? := List.getElem?_drop
        rw [List.getD_eq_getElem?_getD, ← hget, hl]
        rfl
      have hmem : b ∈ str := List.mem_of_mem_drop (hl ▸ List.mem_cons_self ..)
      refine ⟨fun h0 => hne (h0 ▸ hmem), hb, ih (i + 1) ?_⟩
      rw [← List.drop_drop, hl]
      rfl
  exact hdrop 0 str rfl

end Potatos
