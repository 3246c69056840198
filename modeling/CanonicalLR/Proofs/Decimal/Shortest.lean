import CanonicalLR.Decimal.Shortest
import CanonicalLR.Proofs.Decimal.Rounding

/-! The fewest digits of a double. They lie in the interval that rounds to it, and they are always
found: with seventeen digits the grid is so fine that of the two neighbours of a double the nearer
one lies in its interval. -/

namespace CanonicalLR.Decimal

variable {i : Interval} {m n : Nat} {e p : Int}

namespace Interval

/-! The ends of an interval. -/

theorem of_scale (x : Nat) (e : Int) :
    ((x * twoPow (e - 2).toNat : Nat) : ℚ) / twoPow (2 - e).toNat = x / 4 * 2 ^ e := by
  have hpow : ((twoPow (e - 2).toNat : Nat) : ℚ) / twoPow (2 - e).toNat = 2 ^ (e - 2) := by
    have hcast : ∀ k : Nat, ((twoPow k : Nat) : ℚ) = 2 ^ k := fun k => Nat.cast_pow 2 k
    rw [hcast, hcast, ← neg_sub e 2, pow_toNat_div]
  rw [Nat.cast_mul, mul_div_assoc, hpow, zpow_sub₀ two_ne_zero]
  ring

theorem of_low (m : Nat) (e : Int) :
    ((Interval.of m e).low : ℚ) / (Interval.of m e).den = lowEnd m e / 4 * 2 ^ e := by
  have hnarrow : (m == twoPow fractionBits && decide (leastExponent < e)) = decide (Narrow m e) := by
    rw [Bool.beq_eq_decide_eq, ← Bool.decide_and]
    rfl
  have hlow : (Interval.of m e).low = lowEnd m e * twoPow (e - 2).toNat := by
    simp only [Interval.of, lowEnd, hnarrow, decide_eq_true_eq]
  rw [hlow]
  exact of_scale _ e

theorem of_value (m : Nat) (e : Int) :
    ((Interval.of m e).value : ℚ) / (Interval.of m e).den = m * 2 ^ e := by
  refine (of_scale (4 * m) e).trans ?_
  push_cast
  ring

theorem of_high (m : Nat) (e : Int) :
    ((Interval.of m e).high : ℚ) / (Interval.of m e).den = (m + 1 / 2) * 2 ^ e := by
  refine (of_scale (4 * m + 2) e).trans ?_
  push_cast
  ring

theorem of_den_pos (m : Nat) (e : Int) : 0 < (Interval.of m e).den := Nat.pow_pos two_pos

theorem inUnitsOf_den_pos (h : 0 < i.den) (p : Int) : 0 < (i.inUnitsOf p).den :=
  Nat.mul_pos h (Nat.pow_pos (by decide))

theorem holds_iff (h : 0 < i.den) : i.holds n = true ↔
    (i.low : ℚ) / i.den ≤ n ∧ (n : ℚ) ≤ i.high / i.den ∧
      (i.closed = false → (i.low : ℚ) / i.den < n ∧ (n : ℚ) < i.high / i.den) := by
  have hden : (0 : ℚ) < i.den := Nat.cast_pos.mpr h
  rw [div_le_iff₀ hden, le_div_iff₀ hden, div_lt_iff₀ hden, lt_div_iff₀ hden, holds]
  norm_cast
  cases i.closed with
  | false =>
    simp only [Bool.false_eq_true, if_false, Bool.and_eq_true, decide_eq_true_eq]
    exact ⟨fun ⟨hlow, hhigh⟩ => ⟨hlow.le, hhigh.le, fun _ => ⟨hlow, hhigh⟩⟩, fun h => h.2.2 trivial⟩
  | true =>
    simp only [if_true, Bool.and_eq_true, decide_eq_true_eq]
    exact ⟨fun ⟨hlow, hhigh⟩ => ⟨hlow, hhigh, nofun⟩, fun h => ⟨h.1, h.2.1⟩⟩

/-- A number of the grid lies in the interval of a double if it rounds to it. -/
theorem of_holds_iff : ((Interval.of m e).inUnitsOf p).holds n = true ↔
    Rounds m e (n * 10 ^ p) := by
  have hten : (0 : ℚ) < 10 ^ p := zpow_pos (by norm_num) p
  have htwo : (0 : ℚ) < 2 ^ e := zpow_pos two_pos e
  have hscaled : ∀ num : Nat, ((num * tenPow (-p).toNat : Nat) : ℚ) /
      ((Interval.of m e).den * tenPow p.toNat : Nat) = num / (Interval.of m e).den / 10 ^ p :=
    fun num => scaled_div num _ (by decide) p
  have hlow : (((Interval.of m e).inUnitsOf p).low : ℚ) / ((Interval.of m e).inUnitsOf p).den =
      lowEnd m e / 4 * 2 ^ e / 10 ^ p := by
    rw [← of_low]
    exact hscaled _
  have hhigh : (((Interval.of m e).inUnitsOf p).high : ℚ) / ((Interval.of m e).inUnitsOf p).den =
      (m + 1 / 2) * 2 ^ e / 10 ^ p := by
    rw [← of_high]
    exact hscaled _
  have hclosed : ((Interval.of m e).inUnitsOf p).closed = false ↔ m % 2 = 1 := by
    refine beq_eq_false_iff_ne.trans ?_
    omega
  rw [holds_iff (inUnitsOf_den_pos (of_den_pos m e) p), hlow, hhigh, hclosed, div_le_iff₀ hten,
    le_div_iff₀ hten, div_lt_iff₀ hten, lt_div_iff₀ hten, ← le_div_iff₀ htwo, ← div_le_iff₀ htwo,
    ← lt_div_iff₀ htwo, ← div_lt_iff₀ htwo]
  exact ⟨fun ⟨hlow, hhigh, hstrict⟩ => ⟨hlow, hhigh, hstrict⟩, fun h => ⟨h.low, h.high, h.strict⟩⟩

/-! The grid. -/

theorem holds_of_onGrid (h : i.onGrid = some n) : i.holds n = true ∧ n ≠ 0 := by
  simp only [onGrid] at h
  split at h
  · rename_i hbelow habove
    rw [Bool.and_eq_true, bne_iff_ne] at hbelow
    obtain rfl := Option.some.inj h
    split
    · exact hbelow
    · exact ⟨habove, Nat.succ_ne_zero _⟩
  · rename_i hbelow _
    rw [Bool.and_eq_true, bne_iff_ne] at hbelow
    obtain rfl := Option.some.inj h
    exact hbelow
  · rename_i habove
    obtain rfl := Option.some.inj h
    exact ⟨habove, Nat.succ_ne_zero _⟩
  · cases h

/-- A neighbour on the grid is not more than a half away. -/
theorem exists_onGrid (hden : 0 < i.den) (hle : i.den ≤ i.value)
    (hnear : ∀ n : Nat, |(n : ℚ) - i.value / i.den| ≤ 1 / 2 → i.holds n = true) :
    ∃ n, i.onGrid = some n := by
  have hbelow : i.value / i.den ≠ 0 := (Nat.div_pos hle hden).ne'
  have hholds : i.holds (i.value / i.den) = true ∨ i.holds (i.value / i.den + 1) = true := by
    have hdenq : (0 : ℚ) < i.den := Nat.cast_pos.mpr hden
    have hsplit : (i.den : ℚ) * (i.value / i.den : Nat) + (i.value % i.den : Nat) = i.value := by
      exact_mod_cast Nat.div_add_mod i.value i.den
    have hvalue : (i.value : ℚ) / i.den = (i.value / i.den : Nat) + (i.value % i.den : Nat) / i.den := by
      rw [← hsplit]
      field_simp
    have hrest : ((i.value % i.den : Nat) : ℚ) / i.den < 1 := by
      rw [div_lt_one hdenq]
      exact_mod_cast Nat.mod_lt _ hden
    have hrest₀ : (0 : ℚ) ≤ (i.value % i.den : Nat) / i.den := by positivity
    by_cases hhalf : ((i.value % i.den : Nat) : ℚ) / i.den ≤ 1 / 2
    · refine Or.inl (hnear _ (abs_le.mpr ⟨?_, ?_⟩)) <;> linarith
    · refine Or.inr (hnear _ (abs_le.mpr ⟨?_, ?_⟩)) <;> push_cast <;> linarith
  simp only [onGrid, bne_iff_ne.mpr hbelow, Bool.and_true]
  rcases hholds with h | h
  · rw [h]
    cases i.holds (i.value / i.den + 1) <;> exact ⟨_, rfl⟩
  · rw [h]
    cases i.holds (i.value / i.den) <;> exact ⟨_, rfl⟩

/-! Where the digits begin. -/

theorem estimate_le {L : Int} (hlow : -1100 ≤ L) (hhigh : L ≤ 1100) :
    (10 : ℚ) ^ (L * 30103 / 100000 - 1) ≤ 2 ^ L := by
  have hpos : (List.range 1101).all (fun k => 10 ^ (k * 30103 / 100000) ≤ 10 * 2 ^ k) = true := by
    decide +kernel
  have hneg : (List.range 1101).all
      (fun k => 2 ^ k ≤ 10 ^ ((k * 30103 + 99999) / 100000 + 1)) = true := by
    decide +kernel
  rcases Int.eq_nat_or_neg L with ⟨k, rfl | rfl⟩
  · have hk := List.all_eq_true.mp hpos k (List.mem_range.mpr (by omega))
    have hk' : (10 : ℚ) ^ (k * 30103 / 100000) ≤ 10 * 2 ^ k := by
      exact_mod_cast of_decide_eq_true hk
    have hexponent : (k : Int) * 30103 / 100000 = (k * 30103 / 100000 : Nat) := by omega
    rw [hexponent, zpow_sub_one₀ (by norm_num), zpow_natCast, zpow_natCast]
    linarith
  · have hk := List.all_eq_true.mp hneg k (List.mem_range.mpr (by omega))
    have hk' : (2 : ℚ) ^ k ≤ 10 ^ ((k * 30103 + 99999) / 100000 + 1) := by
      exact_mod_cast of_decide_eq_true hk
    have hexponent : -(k : Int) * 30103 / 100000 - 1 =
        -((k * 30103 + 99999) / 100000 + 1 : Nat) := by omega
    rw [hexponent, zpow_neg, zpow_neg, zpow_natCast, zpow_natCast]
    exact inv_anti₀ (by positivity) hk'

theorem le_of_point (hvalue : 0 < i.value) (hden : 0 < i.den)
    (hlow : -1100 ≤ log2Ratio i.value i.den) (hhigh : log2Ratio i.value i.den ≤ 1100) :
    (10 : ℚ) ^ (i.point - 1) ≤ i.value / i.den := by
  have hfits : ∀ {k next : Int}, ¬ (i.value * tenPow (-k).toNat < i.den * tenPow k.toNat) →
      next = k + 1 → (10 : ℚ) ^ (next - 1) ≤ i.value / i.den := by
    rintro k next hk rfl
    have hiff := div_lt_iff_scaled i.value hden (b := 10) (by decide) k
    rw [Nat.cast_ofNat] at hiff
    rw [add_sub_cancel_right]
    exact le_of_not_gt (mt hiff.mpr hk)
  simp only [point, decide_eq_true_eq]
  split_ifs with h₀ h₁ h₂
  · exact (estimate_le hlow hhigh).trans (log2Ratio_spec hvalue hden).1
  · exact hfits h₀ rfl
  · exact hfits h₁ (by ring)
  · exact hfits h₂ (by ring)

end Interval

namespace Canonical

variable (h : Canonical m e)
include h

theorem unit_bounds : (2 : ℚ) ^ (-1074 : Int) ≤ 2 ^ e ∧ (2 ^ 53 * 2 ^ e : ℚ) ≤ 2 ^ (1024 : Int) := by
  have hlow : (2 : ℚ) ^ (-1074 : Int) ≤ 2 ^ e := zpow_le_zpow_right₀ one_le_two h.least
  have hhigh : (2 : ℚ) ^ e ≤ 2 ^ (971 : Int) := zpow_le_zpow_right₀ one_le_two h.greatest
  have hproduct : (2 : ℚ) ^ (1024 : Int) = 2 ^ 53 * 2 ^ (971 : Int) := by
    rw [← zpow_natCast, ← zpow_add₀ two_ne_zero]
    norm_num
  refine ⟨hlow, ?_⟩
  rw [hproduct]
  gcongr

theorem value_bounds : (2 : ℚ) ^ (-1074 : Int) ≤ m * 2 ^ e ∧ (m * 2 ^ e : ℚ) < 2 ^ (1024 : Int) := by
  obtain ⟨hlow, hhigh⟩ := h.unit_bounds
  have hm : (1 : ℚ) ≤ m := by exact_mod_cast h.pos
  have hbound : (m : ℚ) < 2 ^ 53 := by exact_mod_cast h.bound
  have hunit : (0 : ℚ) < 2 ^ e := zpow_pos two_pos e
  exact ⟨hlow.trans (le_mul_of_one_le_left hunit.le hm),
    (mul_lt_mul_of_pos_right hbound hunit).trans_le hhigh⟩

/-- The grid with seventeen digits is fine enough. -/
theorem rounds_of_near {k : Int} (hk : (10 : ℚ) ^ (k - 1) ≤ m * 2 ^ e)
    (hn : |(n : ℚ) - m * 2 ^ e / 10 ^ (k - 17)| ≤ 1 / 2) : Rounds m e (n * 10 ^ (k - 17)) := by
  have hunit : (0 : ℚ) < 2 ^ e := zpow_pos two_pos e
  have hgrid : (0 : ℚ) < 10 ^ (k - 17) := zpow_pos (by norm_num) _
  -- the grid in units of the last bit
  obtain ⟨d, hd⟩ : ∃ d : ℚ, d = 10 ^ (k - 17) / 2 ^ e := ⟨_, rfl⟩
  have hd₀ : 0 < d := hd ▸ div_pos hgrid hunit
  have hfine : 10 ^ 16 * d ≤ m := by
    have hsplit : (10 : ℚ) ^ (k - 1) = 10 ^ 16 * 10 ^ (k - 17) := by
      rw [← zpow_natCast, ← zpow_add₀ (by norm_num)]
      congr 1
      push_cast
      ring
    rw [hd, ← mul_div_assoc, div_le_iff₀ hunit, ← hsplit]
    exact hk
  have hscale : (n : ℚ) * 10 ^ (k - 17) / 2 ^ e = n * d := by rw [hd, mul_div_assoc]
  have hratio : (m * 2 ^ e / 10 ^ (k - 17) : ℚ) = m / d := by
    rw [hd]
    field_simp
  rw [hratio, abs_le, neg_le_sub_iff_le_add, sub_le_iff_le_add] at hn
  have hlow : m - d / 2 ≤ n * d := by
    have := hn.1
    rw [div_le_iff₀ hd₀] at this
    linarith
  have hhigh : n * d ≤ m + d / 2 := by
    have := mul_le_mul_of_nonneg_right hn.2 hd₀.le
    rw [add_mul, div_mul_cancel₀ _ hd₀.ne'] at this
    linarith
  have hbound : (m : ℚ) < 2 ^ 53 := by exact_mod_cast h.bound
  have hhalf : n * d < m + 1 / 2 := by linarith
  have hend : (lowEnd m e : ℚ) / 4 < n * d := by
    rw [cast_lowEnd h.pos]
    split
    · rename_i hnarrow
      have hm : (m : ℚ) = 2 ^ 52 := by exact_mod_cast hnarrow.1
      linarith
    · linarith
  exact ⟨by rw [hscale]; exact hend.le, by rw [hscale]; exact hhalf.le,
    fun _ => by rw [hscale]; exact ⟨hend, hhalf⟩⟩

/-- The first digits are not farther to the left than the double reaches. -/
theorem le_of_point : (10 : ℚ) ^ ((Interval.of m e).point - 1) ≤ m * 2 ^ e := by
  have hden := Interval.of_den_pos m e
  have hvalue := Interval.of_value m e
  obtain ⟨hlow, hhigh⟩ := h.value_bounds
  have hpos : 0 < (Interval.of m e).value :=
    Nat.mul_pos (Nat.mul_pos (by decide) h.pos) (Nat.pow_pos two_pos)
  obtain ⟨hlog, hlog'⟩ := log2Ratio_spec hpos hden
  rw [hvalue] at hlog hlog'
  have h₁ := (zpow_lt_zpow_iff_right₀ (one_lt_two (α := ℚ))).mp (hlow.trans_lt hlog')
  have h₂ := (zpow_lt_zpow_iff_right₀ (one_lt_two (α := ℚ))).mp (hlog.trans_lt hhigh)
  rw [← hvalue]
  exact Interval.le_of_point hpos hden (by omega) (by omega)

/-- On the grid with seventeen digits there are digits for the double. -/
theorem exists_onGrid {k : Int} (hk : (10 : ℚ) ^ (k - 1) ≤ m * 2 ^ e) :
    ∃ n, ((Interval.of m e).inUnitsOf (k - 17)).onGrid = some n := by
  have hden := Interval.inUnitsOf_den_pos (Interval.of_den_pos m e) (k - 17)
  have hvalue : (((Interval.of m e).inUnitsOf (k - 17)).value : ℚ) /
      ((Interval.of m e).inUnitsOf (k - 17)).den = m * 2 ^ e / 10 ^ (k - 17) := by
    rw [← Interval.of_value]
    exact scaled_div _ _ (by decide) (k - 17)
  refine Interval.exists_onGrid hden ?_ fun n hn => ?_
  · have hle : (10 : ℚ) ^ (k - 17) ≤ m * 2 ^ e :=
      (zpow_le_zpow_right₀ (by norm_num) (by omega)).trans hk
    have hone := (one_le_div₀ (zpow_pos (by norm_num) (k - 17))).mpr hle
    rw [← hvalue, one_le_div₀ (Nat.cast_pos.mpr hden)] at hone
    exact_mod_cast hone
  · rw [hvalue] at hn
    exact Interval.of_holds_iff.mpr (h.rounds_of_near hk hn)

theorem exists_shortest : ∃ (n : Nat) (p : Int), n ≠ 0 ∧ Rounds m e (n * 10 ^ p) ∧
    shortest m e = Digits.of n p := by
  obtain ⟨d, hd⟩ : ∃ d, (List.range 17).findSome? (fun (n : Nat) =>
      ((Interval.of m e).inUnitsOf ((Interval.of m e).point - (n + 1))).onGrid.map fun d =>
        Digits.of d ((Interval.of m e).point - (n + 1))) = some d := by
    rw [← Option.isSome_iff_exists, List.isSome_findSome?, List.any_eq_true]
    obtain ⟨n, hn⟩ := h.exists_onGrid h.le_of_point
    exact ⟨16, by decide, by simp [hn]⟩
  obtain ⟨k, -, hk⟩ := List.exists_of_findSome?_eq_some hd
  obtain ⟨n, hn, rfl⟩ := Option.map_eq_some_iff.mp hk
  obtain ⟨hholds, hne⟩ := Interval.holds_of_onGrid hn
  refine ⟨n, _, hne, Interval.of_holds_iff.mp hholds, ?_⟩
  simp only [shortest, hd, Option.getD_some]

end Canonical

end CanonicalLR.Decimal
