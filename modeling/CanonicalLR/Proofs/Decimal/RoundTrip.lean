import CanonicalLR.Proofs.Decimal.Numeral
import CanonicalLR.Proofs.Decimal.Shortest
import CanonicalLR.Proofs.Decimal.Words

/-! Writing a double and reading it again. -/

namespace CanonicalLR.Decimal

open Text

variable {m n : Nat} {e k : Int} {v : ℚ}

/-- The length of a numeral says between which powers of ten the number lies. -/
theorem length_toDigits_bounds (hn : n ≠ 0) :
    (10 : ℚ) ^ (((Nat.toDigits 10 n).length : Int) - 1) ≤ n ∧
      (n : ℚ) < 10 ^ ((Nat.toDigits 10 n).length : Int) := by
  have hpos : 0 < (Nat.toDigits 10 n).length := Nat.length_toDigits_pos
  obtain ⟨k, hk⟩ := Nat.exists_eq_add_one.mpr hpos
  rw [hk]
  have hlt : n < 10 ^ (k + 1) := (Nat.length_toDigits_le_iff (by decide) (Nat.succ_pos k)).mp hk.le
  have hle : 10 ^ k ≤ n := by
    rcases Nat.eq_zero_or_pos k with rfl | hk'
    · exact Nat.one_le_iff_ne_zero.mpr hn
    · exact Nat.le_of_not_lt fun hlt =>
        absurd ((Nat.length_toDigits_le_iff (by decide) hk').mpr hlt) (by omega)
  constructor
  · rw [Nat.cast_succ, add_sub_cancel_right, zpow_natCast]
    exact_mod_cast hle
  · rw [zpow_natCast]
    exact_mod_cast hlt

/-- The number lies below the power of ten that its digits reach up to, and not below a tenth of
that. -/
theorem scaled_bounds (hn : n ≠ 0) (k : Int) :
    (10 : ℚ) ^ ((Nat.toDigits 10 n).length + k - 1) ≤ n * 10 ^ k ∧
      (n : ℚ) * 10 ^ k < 10 ^ ((Nat.toDigits 10 n).length + k) := by
  obtain ⟨hfirst, hlast⟩ := length_toDigits_bounds hn
  have hten : (0 : ℚ) < 10 ^ k := zpow_pos (by norm_num) k
  constructor
  · rw [add_sub_right_comm, zpow_add₀ (by norm_num)]
    exact mul_le_mul_of_nonneg_right hfirst hten.le
  · rw [zpow_add₀ (by norm_num)]
    exact mul_lt_mul_of_pos_right hlast hten

theorem cast_scaled (n : Nat) (k : Int) :
    ((n * tenPow k.toNat : Nat) : ℚ) / tenPow (-k).toNat = n * 10 ^ k := by
  have hcast : ∀ j : Nat, ((tenPow j : Nat) : ℚ) = 10 ^ j := fun j => Nat.cast_pow 10 j
  rw [Nat.cast_mul, mul_div_assoc, hcast, hcast, pow_toNat_div]

theorem tenPow_le_twoPow : (10 : ℚ) ^ (-331 : Int) ≤ 2 ^ (-1075 : Int) := by
  have hnat : 2 ^ 1075 ≤ 10 ^ 331 := by decide +kernel
  have hcast : (2 : ℚ) ^ 1075 ≤ 10 ^ 331 := by exact_mod_cast hnat
  rw [zpow_neg, zpow_neg, zpow_ofNat, zpow_ofNat]
  exact inv_anti₀ (by positivity) hcast

theorem twoPow_le_tenPow : (2 : ℚ) ^ (1024 : Int) ≤ 10 ^ (310 : Int) := by
  have hnat : 2 ^ 1024 ≤ 10 ^ 310 := by decide +kernel
  rw [zpow_ofNat, zpow_ofNat]
  exact_mod_cast hnat

namespace Canonical

variable (h : Canonical m e)
include h

theorem bounds_of_rounds (hr : Rounds m e v) : (2 : ℚ) ^ (-1075 : Int) ≤ v ∧ v < 2 ^ (1024 : Int) := by
  obtain ⟨hlow, hhigh⟩ := h.unit_bounds
  have hm : (1 : ℚ) ≤ m := by exact_mod_cast h.pos
  have hbound : (m : ℚ) + 1 ≤ 2 ^ 53 := by exact_mod_cast h.bound
  have hunit : (0 : ℚ) < 2 ^ e := zpow_pos two_pos e
  have hv : 1 / 2 * 2 ^ e ≤ v := by
    rw [← le_div_iff₀ hunit]
    linarith [hr.low, h.sub_half_le_lowEnd]
  have hv' : v < 2 ^ 53 * 2 ^ e := by
    rw [← div_lt_iff₀ hunit]
    linarith [hr.high]
  have hleast : (2 : ℚ) ^ (-1075 : Int) = 1 / 2 * 2 ^ (-1074 : Int) := by
    rw [show (-1075 : Int) = -1074 - 1 from rfl, zpow_sub_one₀ two_ne_zero]
    ring
  rw [hleast]
  exact ⟨by linarith, hv'.trans_le hhigh⟩

/-- Far outside the range of doubles nothing lies in an interval of one. -/
theorem wordOfDecimal_eq (hr : Rounds m e (n * 10 ^ k)) : wordOfDecimal n k = wordOf m e := by
  obtain ⟨hlow, hhigh⟩ := h.bounds_of_rounds hr
  have hn : n ≠ 0 := by
    rintro rfl
    rw [Nat.cast_zero, zero_mul] at hlow
    exact absurd (zpow_pos two_pos _) (not_lt.mpr hlow)
  obtain ⟨hfirst, hlast⟩ := scaled_bounds hn k
  generalize htop : ((Nat.toDigits 10 n).length : Int) + k = top at hfirst hlast
  have hsmall : ¬ top < -330 := fun hlt => absurd tenPow_le_twoPow (not_le.mpr
    ((hlow.trans_lt hlast).trans_le (zpow_le_zpow_right₀ (by norm_num) (by omega))))
  have hlarge : ¬ 310 < top := fun hlt => absurd twoPow_le_tenPow (not_le.mpr
    ((zpow_le_zpow_right₀ (by norm_num) (by omega)).trans_lt (hfirst.trans_lt hhigh)))
  have hpos : ∀ j : Nat, 0 < tenPow j := fun j => Nat.pow_pos (by decide)
  simp only [wordOfDecimal, htop, hsmall, hlarge, hn, decide_false, Bool.or_self, if_false,
    Bool.false_eq_true]
  refine h.nearestWord_eq (Nat.mul_pos (Nat.pos_of_ne_zero hn) (hpos _)) (hpos _) ?_
  rwa [cast_scaled]

theorem magnitudeText_read : Numeral (Style.literal.magnitudeText m e) ∧
    readMagnitude (Style.literal.magnitudeText m e) = some (wordOf m e) := by
  obtain ⟨n, p, hn, hr, hshortest⟩ := h.exists_shortest
  obtain ⟨hdigits, hvalue⟩ := digitsOf hn p
  have htext : ∃ text, Style.literal.magnitudeText m e = text ∧ Numeral text ∧
      Denotes text (n * 10 ^ p) := by
    rw [Style.magnitudeText, if_neg h.pos.ne', ← hvalue]
    simp only [hshortest]
    split
    · exact ⟨_, rfl, positionalText_denotes hdigits⟩
    · exact ⟨_, rfl, exponentText_denotes hdigits⟩
  obtain ⟨text, rfl, hnumeral, digits, exponent, hread, hsame⟩ := htext
  rw [← hsame] at hr
  exact ⟨hnumeral, by rw [hread, h.wordOfDecimal_eq hr]⟩

end Canonical

/-! Whole numerals. -/

theorem Numeral.exists_cons {cs : List Char} (h : Numeral cs) :
    ∃ c rest, cs = c :: rest ∧ c.isDigit = true := by
  cases h with
  | point hwhole =>
    obtain ⟨c, rest, rfl, hc⟩ := hwhole.exists_cons
    exact ⟨c, _, rfl, hc⟩
  | exponent hwhole =>
    obtain ⟨c, rest, rfl, hc⟩ := hwhole.exists_cons
    exact ⟨c, _, rfl, hc⟩

/-- What begins with a digit or a point is none of the words, which begin with letters, and has no
sign. -/
theorem read_of_magnitude {c : Char} {rest : List Char} {word : Nat}
    (hc : c.isDigit = true ∨ c = '.') (hread : readMagnitude (c :: rest) = some word) :
    read (c :: rest) = .ok (floatOfWord false word) := by
  have hletter : c.toLower ≠ 'i' ∧ c.toLower ≠ 'n' := by
    have hall : ∀ n < 58, 46 ≤ n →
        (Char.ofNat n).toLower ≠ 'i' ∧ (Char.ofNat n).toLower ≠ 'n' := by decide
    have hrange : 46 ≤ c.toNat ∧ c.toNat ≤ 57 := by
      rcases hc with hc | rfl
      · exact ⟨(by decide : 46 ≤ 48).trans (toNat_of_isDigit hc).1, (toNat_of_isDigit hc).2⟩
      · decide
    rw [← Char.ofNat_toNat c]
    exact hall _ (Nat.lt_succ_of_le hrange.2) hrange.1
  have hword : ∀ {first : Char} {word : List Char}, c.toLower ≠ first →
      String.ofList ((c :: rest).map Char.toLower) ≠ String.ofList (first :: word) := by
    intro first word hne heq
    exact hne (List.cons.inj (String.ofList_injective heq)).1
  have hinf : String.ofList ((c :: rest).map Char.toLower) ≠ "inf" := hword hletter.1
  have hinfinity : String.ofList ((c :: rest).map Char.toLower) ≠ "infinity" := hword hletter.1
  have hnan : String.ofList ((c :: rest).map Char.toLower) ≠ "nan" := hword hletter.2
  have hunsigned : readUnsigned (c :: rest) = some word := by
    simp only [readUnsigned, hinf, hinfinity, hnan, decide_false, Bool.or_self, Bool.false_eq_true,
      if_false, hread]
  have hsign : cutSign (c :: rest) = (false, c :: rest) := by
    rcases hc with hc | rfl
    · exact cutSign_of_isDigit hc
    · rfl
  simp only [read, List.isEmpty_cons, Bool.false_eq_true, if_false, hsign, hunsigned]

theorem read_of_numeral {cs : List Char} {word : Nat} (h : Numeral cs)
    (hread : readMagnitude cs = some word) : read cs = .ok (floatOfWord false word) := by
  obtain ⟨c, rest, rfl, hc⟩ := h.exists_cons
  exact read_of_magnitude (Or.inl hc) hread

/-- The number is written as a numeral that is read as this number. -/
structure Faithful (x : Float) : Prop where
  numeral : Numeral (Style.literal.write x).toList
  reads : read (Style.literal.write x).toList = .ok x

theorem faithful_of_isFinite {x : Float} (h : Unsigned x) (hfinite : x.isFinite = true) :
    Faithful x := by
  obtain ⟨word, hlt, hx, hbits⟩ := h.exists_word hfinite
  have hsame : ∃ cs, (Style.literal.write x).toList = cs ∧ Numeral cs ∧
      readMagnitude cs = some word := by
    rw [Style.write, String.toList_ofList, Binary.ofFloat, hbits]
    rcases ofWord_cases hlt with ⟨rfl, hword⟩ | ⟨m, e, hcanonical, rfl, hword⟩
    · rw [hword]
      exact ⟨_, rfl, .point allDigits_zero allDigits_zero, rfl⟩
    · rw [hword]
      exact ⟨_, rfl, hcanonical.magnitudeText_read⟩
  obtain ⟨cs, hcs, hnumeral, hread⟩ := hsame
  rw [hx]
  exact ⟨by rw [← hx, hcs]; exact hnumeral, by rw [← hx, hcs, hx]; exact read_of_numeral hnumeral hread⟩

/-! What is read without a sign. -/

theorem nearestWord_le (num den : Nat) : nearestWord num den ≤ infinityWord := by
  rw [nearestWord]
  split
  · exact Nat.zero_le _
  · exact min_le_right _ _

theorem wordOfDecimal_le (digits : Nat) (exponent : Int) :
    wordOfDecimal digits exponent ≤ infinityWord := by
  simp only [wordOfDecimal]
  split_ifs
  · exact Nat.zero_le _
  · exact le_rfl
  · exact nearestWord_le _ _

theorem readMagnitude_le {cs : List Char} {word : Nat} (h : readMagnitude cs = some word) :
    word ≤ infinityWord := by
  simp only [readMagnitude] at h
  split_ifs at h
  obtain ⟨e, -, rfl⟩ := Option.map_eq_some_iff.mp h
  exact wordOfDecimal_le _ _

theorem readUnsigned_lt {cs : List Char} {word : Nat} (h : readUnsigned cs = some word) :
    word < 2 ^ 63 := by
  have hinfinity : infinityWord = 2047 * 2 ^ 52 := rfl
  simp only [readUnsigned] at h
  split_ifs at h
  · rw [← Option.some.inj h]
    decide
  · rw [← Option.some.inj h]
    decide
  · have := readMagnitude_le h
    omega

theorem unsigned_of_read {cs : List Char} {x : Float} (hsign : cs.head? ≠ some '-')
    (h : read cs = .ok x) : Unsigned x := by
  have hcut : (cutSign cs).1 = false := by
    unfold cutSign
    split
    · exact absurd rfl hsign
    · rfl
    · rfl
  simp only [read] at h
  split_ifs at h
  split at h
  · rename_i word hword
    cases h
    exact ⟨word, readUnsigned_lt hword, by rw [hcut]⟩
  · cases h

end CanonicalLR.Decimal
