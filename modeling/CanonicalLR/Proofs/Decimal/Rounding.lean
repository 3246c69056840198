import CanonicalLR.Decimal.Binary
import Mathlib.Algebra.Order.Field.Power
import Mathlib.Algebra.Order.Field.Rat
import Mathlib.Tactic.FieldSimp
import Mathlib.Tactic.Linarith
import Mathlib.Tactic.Positivity
import Mathlib.Tactic.Ring

/-! The double nearest to a fraction. Around each double lies an interval of numbers that are nearer
to it than to its neighbours; whatever fraction lies in there, this double is found. -/

namespace CanonicalLR.Decimal

variable {num den m n : Nat} {e : Int} {v : ℚ}

/-! Fractions. -/

theorem pow_toNat_div (b : ℚ) (e : Int) : b ^ e.toNat / b ^ (-e).toNat = b ^ e := by
  rcases Int.eq_nat_or_neg e with ⟨k, rfl | rfl⟩ <;> simp

theorem scaled_div (num den : Nat) {b : Nat} (hb : b ≠ 0) (e : Int) :
    ((num * b ^ (-e).toNat : Nat) : ℚ) / (den * b ^ e.toNat : Nat) = num / den / (b : ℚ) ^ e := by
  have hb' : (b : ℚ) ≠ 0 := Nat.cast_ne_zero.mpr hb
  rw [← pow_toNat_div b e]
  push_cast
  field_simp

theorem div_lt_iff_scaled (num : Nat) (hden : 0 < den) {b : Nat} (hb : 0 < b) (e : Int) :
    num * b ^ (-e).toNat < den * b ^ e.toNat ↔ (num : ℚ) / den < (b : ℚ) ^ e := by
  have hpos : (0 : ℚ) < (b : ℚ) ^ e := zpow_pos (Nat.cast_pos.mpr hb) e
  have hscaled : (0 : ℚ) < (den * b ^ e.toNat : Nat) := by positivity
  rw [← div_lt_one hpos, ← scaled_div num den hb.ne' e, div_lt_one hscaled, Nat.cast_lt]

theorem log2Ratio_spec (hnum : 0 < num) (hden : 0 < den) :
    (2 : ℚ) ^ log2Ratio num den ≤ num / den ∧ (num : ℚ) / den < 2 ^ (log2Ratio num den + 1) := by
  have hbounds : ∀ {n : Nat}, 0 < n → (2 : ℚ) ^ (n.log2 : Int) ≤ n ∧
      (n : ℚ) < 2 ^ ((n.log2 : Int) + 1) := by
    intro n hn
    refine ⟨by exact_mod_cast Nat.log2_self_le hn.ne', ?_⟩
    exact_mod_cast Nat.lt_log2_self
  obtain ⟨hnum₁, hnum₂⟩ := hbounds hnum
  obtain ⟨hden₁, hden₂⟩ := hbounds hden
  have hdenq : (0 : ℚ) < den := Nat.cast_pos.mpr hden
  have hlow : (2 : ℚ) ^ ((num.log2 : Int) - den.log2 - 1) ≤ num / den := by
    rw [le_div_iff₀ hdenq]
    calc (2 : ℚ) ^ ((num.log2 : Int) - den.log2 - 1) * den
        ≤ 2 ^ ((num.log2 : Int) - den.log2 - 1) * 2 ^ ((den.log2 : Int) + 1) := by gcongr
      _ = 2 ^ (num.log2 : Int) := by
        rw [← zpow_add₀ two_ne_zero]
        congr 1
        ring
      _ ≤ num := hnum₁
  have hhigh : (num : ℚ) / den < 2 ^ ((num.log2 : Int) - den.log2 + 1) := by
    rw [div_lt_iff₀ hdenq]
    calc (num : ℚ) < 2 ^ ((num.log2 : Int) + 1) := hnum₂
      _ = 2 ^ ((num.log2 : Int) - den.log2 + 1) * 2 ^ (den.log2 : Int) := by
        rw [← zpow_add₀ two_ne_zero]
        congr 1
        ring
      _ ≤ 2 ^ ((num.log2 : Int) - den.log2 + 1) * den := by gcongr
  have hiff := div_lt_iff_scaled num hden two_pos ((num.log2 : Int) - den.log2)
  rw [Nat.cast_ofNat] at hiff
  by_cases hlt : (num : ℚ) / den < 2 ^ ((num.log2 : Int) - den.log2)
  · have hlog : log2Ratio num den = (num.log2 : Int) - den.log2 - 1 := if_pos (hiff.mpr hlt)
    rw [hlog, sub_add_cancel]
    exact ⟨hlow, hlt⟩
  · have hlog : log2Ratio num den = (num.log2 : Int) - den.log2 := if_neg (mt hiff.mp hlt)
    rw [hlog]
    exact ⟨le_of_not_gt hlt, hhigh⟩

theorem log2Ratio_eq (hnum : 0 < num) (hden : 0 < den) (hlow : (2 : ℚ) ^ e ≤ num / den)
    (hhigh : (num : ℚ) / den < 2 ^ (e + 1)) : log2Ratio num den = e := by
  obtain ⟨hlow', hhigh'⟩ := log2Ratio_spec hnum hden
  have h₁ := (zpow_lt_zpow_iff_right₀ (one_lt_two (α := ℚ))).mp (hlow.trans_lt hhigh')
  have h₂ := (zpow_lt_zpow_iff_right₀ (one_lt_two (α := ℚ))).mp (hlow'.trans_lt hhigh)
  omega

/-- The number is not more than a half away, and less if it is odd. -/
structure HalfEven (n : Nat) (x : ℚ) : Prop where
  low : (n : ℚ) - 1 / 2 ≤ x
  high : x ≤ n + 1 / 2
  strict : n % 2 = 1 → (n : ℚ) - 1 / 2 < x ∧ x < n + 1 / 2

/-- Half way between two neighbours only the even one is such a number. -/
theorem HalfEven.le {x : ℚ} (h : HalfEven m x) (h' : HalfEven n x) : m ≤ n := by
  by_contra hlt
  have hsucc : m = n + 1 := by
    have hle : (m : ℚ) ≤ n + 1 := by linarith [h.low, h'.high]
    have hle' : m ≤ n + 1 := by exact_mod_cast hle
    omega
  have hlow := h.low
  have hstrict := h.strict
  rw [hsucc] at hlow hstrict
  push_cast at hlow hstrict
  rcases Nat.mod_two_eq_zero_or_one n with heven | hodd
  · linarith [(hstrict (by omega)).1, h'.high]
  · linarith [(h'.strict hodd).2]

theorem halfEven_roundHalfEven (num : Nat) (hden : 0 < den) :
    HalfEven (roundHalfEven num den) (num / den) := by
  have hdenq : (0 : ℚ) < den := Nat.cast_pos.mpr hden
  -- with the quotient and the remainder of the fraction
  obtain ⟨q, r, hr, rfl⟩ : ∃ q r, r < den ∧ num = den * q + r :=
    ⟨num / den, num % den, Nat.mod_lt _ hden, (Nat.div_add_mod num den).symm⟩
  have hdiv : (den * q + r) / den = q := by
    rw [Nat.mul_add_div hden, Nat.div_eq_of_lt hr, Nat.add_zero]
  have hmod : (den * q + r) % den = r := by
    rw [Nat.mul_add_mod, Nat.mod_eq_of_lt hr]
  have hvalue : ((den * q + r : Nat) : ℚ) / den = q + r / den := by
    push_cast
    field_simp
  have hrest : (0 : ℚ) ≤ r / den ∧ (r : ℚ) / den < 1 :=
    ⟨by positivity, (div_lt_one hdenq).mpr (Nat.cast_lt.mpr hr)⟩
  have hle : (r : ℚ) / den ≤ 1 / 2 ↔ 2 * r ≤ den := by
    rw [div_le_div_iff₀ hdenq two_pos, mul_comm, one_mul]
    exact_mod_cast Iff.rfl
  have hge : (1 : ℚ) / 2 ≤ r / den ↔ den ≤ 2 * r := by
    rw [div_le_div_iff₀ two_pos hdenq, one_mul, mul_comm]
    exact_mod_cast Iff.rfl
  rw [hvalue, roundHalfEven]
  simp only [hdiv, hmod, Bool.or_eq_true, decide_eq_true_eq, Bool.and_eq_true, beq_iff_eq]
  split_ifs with hup
  · have hhalf := hge.mpr (by omega)
    refine ⟨by push_cast; linarith, by push_cast; linarith, fun hodd => ?_⟩
    have hmore := lt_of_not_ge (mt hle.mp (by omega))
    push_cast
    exact ⟨by linarith, by linarith⟩
  · have hhalf := hle.mpr (by omega)
    refine ⟨by linarith, by linarith, fun hodd => ?_⟩
    have hless := lt_of_not_ge (mt hge.mp (by omega))
    exact ⟨by linarith, by linarith⟩

theorem roundHalfEven_eq (hden : 0 < den) (h : HalfEven n (num / den)) :
    roundHalfEven num den = n :=
  have hround := halfEven_roundHalfEven num hden
  le_antisymm (hround.le h) (h.le hround)

/-! Doubles. -/

/-- The mantissa and exponent of a double other than zero: only the smallest doubles have a mantissa
of less than 53 bits. -/
structure Canonical (m : Nat) (e : Int) : Prop where
  pos : 0 < m
  bound : m < 2 ^ 53
  least : leastExponent ≤ e
  greatest : e ≤ 971
  full : leastExponent < e → 2 ^ 52 ≤ m

/-- Whether the double below is only half as far away as the one above. -/
def Narrow (m : Nat) (e : Int) : Prop := m = 2 ^ 52 ∧ leastExponent < e

instance (m : Nat) (e : Int) : Decidable (Narrow m e) := inferInstanceAs (Decidable (_ ∧ _))

/-- Four times the lower end of the interval, in units of the last bit. -/
def lowEnd (m : Nat) (e : Int) : Nat := 4 * m - if Narrow m e then 1 else 2

/-- The number is at least as near to the double as to the neighbours of this, and nearer if the
mantissa is odd. -/
structure Rounds (m : Nat) (e : Int) (v : ℚ) : Prop where
  low : (lowEnd m e : ℚ) / 4 ≤ v / 2 ^ e
  high : v / 2 ^ e ≤ m + 1 / 2
  strict : m % 2 = 1 → (lowEnd m e : ℚ) / 4 < v / 2 ^ e ∧ v / 2 ^ e < m + 1 / 2

/-- The word of a double without sign. -/
def wordOf (m : Nat) (e : Int) : Nat := (e - leastExponent).toNat * 2 ^ 52 + m

theorem cast_lowEnd (hm : 0 < m) :
    (lowEnd m e : ℚ) / 4 = m - if Narrow m e then 1 / 4 else 1 / 2 := by
  rw [lowEnd]
  split <;> rw [Nat.cast_sub (by omega)] <;> push_cast <;> ring

theorem nearestWord_of_unit (hnum : 0 < num) {E : Int} {q : Nat}
    (hunit : max (log2Ratio num den - 52) leastExponent = E)
    (hround : roundHalfEven (num * twoPow (-E).toNat) (den * twoPow E.toNat) = q) :
    nearestWord num den = min ((E - leastExponent).toNat * 2 ^ 52 + q) infinityWord := by
  subst hunit hround
  rw [nearestWord, if_neg hnum.ne']
  rfl

/-! Powers of two in units of the last bit. -/

theorem two_zpow_add_le {v : ℚ} (k : Nat) : (2 : ℚ) ^ (e + k) ≤ v ↔ 2 ^ k ≤ v / 2 ^ e := by
  rw [le_div_iff₀ (zpow_pos two_pos e), zpow_add₀ two_ne_zero, zpow_natCast, mul_comm]

theorem lt_two_zpow_add {v : ℚ} (k : Nat) : v < 2 ^ (e + k) ↔ v / 2 ^ e < 2 ^ k := by
  rw [div_lt_iff₀ (zpow_pos two_pos e), zpow_add₀ two_ne_zero, zpow_natCast, mul_comm]

namespace Canonical

variable (h : Canonical m e)
include h

theorem wordOf_lt : wordOf m e < infinityWord := by
  have hinfinity : infinityWord = 2047 * 2 ^ 52 := rfl
  have hleast : leastExponent = -1074 := rfl
  have := h.bound
  have := h.greatest
  rw [wordOf, hinfinity, hleast]
  omega

theorem sub_half_le_lowEnd : (m : ℚ) - 1 / 2 ≤ lowEnd m e / 4 := by
  rw [cast_lowEnd h.pos]
  split <;> linarith

theorem roundHalfEven_scaled (hden : 0 < den) (hr : Rounds m e (num / den)) :
    roundHalfEven (num * twoPow (-e).toNat) (den * twoPow e.toNat) = m := by
  have hscaled : ((num * twoPow (-e).toNat : Nat) : ℚ) / (den * twoPow e.toNat : Nat) =
      num / den / 2 ^ e := scaled_div num den two_ne_zero e
  have hlow := h.sub_half_le_lowEnd
  refine roundHalfEven_eq (Nat.mul_pos hden (Nat.pow_pos two_pos)) ⟨?_, ?_, fun hodd => ?_⟩
  · rw [hscaled]
    exact hlow.trans hr.low
  · rw [hscaled]
    exact hr.high
  · rw [hscaled]
    exact ⟨hlow.trans_lt (hr.strict hodd).1, (hr.strict hodd).2⟩

/-- Below a power of two, where the units of the last bit are half as large, it is rounded up to the
power. -/
theorem roundHalfEven_below (hden : 0 < den) (hr : Rounds m e (num / den)) (hnarrow : Narrow m e)
    (hbelow : (num : ℚ) / den / 2 ^ e < 2 ^ 52) :
    roundHalfEven (num * twoPow (-(e - 1)).toNat) (den * twoPow (e - 1).toNat) = 2 ^ 53 := by
  have hscaled : ((num * twoPow (-(e - 1)).toNat : Nat) : ℚ) / (den * twoPow (e - 1).toNat : Nat) =
      2 * (num / den / 2 ^ e) := by
    refine (scaled_div num den two_ne_zero (e - 1)).trans ?_
    rw [Nat.cast_ofNat, zpow_sub_one₀ two_ne_zero]
    field_simp
  have hlow := hr.low
  rw [cast_lowEnd h.pos, if_pos hnarrow, hnarrow.1] at hlow
  push_cast at hlow
  refine roundHalfEven_eq (Nat.mul_pos hden (Nat.pow_pos two_pos))
    ⟨?_, ?_, fun hodd => absurd hodd (by decide)⟩
  · rw [hscaled]
    push_cast
    linarith
  · rw [hscaled]
    push_cast
    linarith

theorem nearestWord_eq_wordOf (hnum : 0 < num) {E : Int} {q : Nat}
    (hunit : max (log2Ratio num den - 52) leastExponent = E)
    (hround : roundHalfEven (num * twoPow (-E).toNat) (den * twoPow E.toNat) = q)
    (hword : (E - leastExponent).toNat * 2 ^ 52 + q = wordOf m e) :
    nearestWord num den = wordOf m e := by
  rw [nearestWord_of_unit hnum hunit hround, hword]
  exact min_eq_left h.wordOf_lt.le

/-- A fraction below the full mantissas of the exponent lies just below a power of two, and has one
bit less. -/
theorem log2Ratio_below (hnum : 0 < num) (hden : 0 < den) (hr : Rounds m e (num / den))
    (hlt : leastExponent < e) (hbelow : (num : ℚ) / den / 2 ^ e < 2 ^ 52) :
    m = 2 ^ 52 ∧ log2Ratio num den = e + 51 := by
  have hm : m = 2 ^ 52 := by
    have hle : (m : ℚ) < 2 ^ 52 + 1 := by linarith [hr.low, h.sub_half_le_lowEnd]
    have hle' : m < 2 ^ 52 + 1 := by exact_mod_cast hle
    exact le_antisymm (Nat.le_of_lt_succ hle') (h.full hlt)
  have hlow := hr.low
  rw [cast_lowEnd h.pos, if_pos ⟨hm, hlt⟩, hm] at hlow
  push_cast at hlow
  have h51 : (2 : ℚ) ^ 51 ≤ num / den / 2 ^ e := by linarith
  refine ⟨hm, log2Ratio_eq hnum hden ((two_zpow_add_le 51).mpr h51) ?_⟩
  rw [add_assoc]
  exact (lt_two_zpow_add 52).mpr hbelow

theorem div_lt_two_pow (hr : Rounds m e (num / den)) : (num : ℚ) / den / 2 ^ e < 2 ^ 53 := by
  have hbound : (m : ℚ) + 1 ≤ 2 ^ 53 := by exact_mod_cast h.bound
  linarith [hr.high]

/-- The fractions in the interval of a double have this double as the nearest one. -/
theorem nearestWord_eq (hnum : 0 < num) (hden : 0 < den) (hr : Rounds m e (num / den)) :
    nearestWord num den = wordOf m e := by
  rcases le_or_gt ((2 : ℚ) ^ 52) (num / den / 2 ^ e) with hfull | hbelow
  · have hlog : log2Ratio num den = e + 52 := by
      refine log2Ratio_eq hnum hden ((two_zpow_add_le 52).mpr hfull) ?_
      rw [add_assoc]
      exact (lt_two_zpow_add 53).mpr (h.div_lt_two_pow hr)
    refine h.nearestWord_eq_wordOf hnum ?_ (h.roundHalfEven_scaled hden hr) rfl
    rw [hlog, add_sub_cancel_right, max_eq_left h.least]
  · rcases h.least.eq_or_lt with heq | hlt
    · have hlog : log2Ratio num den < e + 52 := (zpow_lt_zpow_iff_right₀ one_lt_two).mp
        ((log2Ratio_spec hnum hden).1.trans_lt ((lt_two_zpow_add 52).mpr hbelow))
      refine h.nearestWord_eq_wordOf hnum ?_ (h.roundHalfEven_scaled hden hr) rfl
      rw [max_eq_right (by omega), heq]
    · obtain ⟨hm, hlog⟩ := h.log2Ratio_below hnum hden hr hlt hbelow
      refine h.nearestWord_eq_wordOf hnum ?_ (h.roundHalfEven_below hden hr ⟨hm, hlt⟩ hbelow) ?_
      · rw [hlog, max_eq_left (by omega)]
        omega
      · rw [wordOf, hm]
        omega

end Canonical

end CanonicalLR.Decimal
