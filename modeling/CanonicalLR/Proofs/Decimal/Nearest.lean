import CanonicalLR.Proofs.Decimal.RoundTrip

/-! Every decimal number is read as the double nearest to it. The numerals here are all those that a
text may hold; a number too small or too large for the other doubles becomes zero or infinite. -/

namespace CanonicalLR.Decimal

open Text

variable {num den q : Nat} {E e : Int} {v : ℚ} {cs : List Char}

/-- The double without a sign that is nearest to a number, of two equally near ones the one with the
even mantissa. Infinity takes the place of the double after the largest finite one. -/
inductive RoundsTo (v : ℚ) : Binary → Prop where
  | zero : 0 ≤ v → v ≤ 2 ^ (-1075 : Int) → RoundsTo v (.finite false 0 leastExponent)
  | finite {m : Nat} {e : Int} : Canonical m e → Rounds m e v → RoundsTo v (.finite false m e)
  | infinite : (2 ^ 53 - 1 / 2) * 2 ^ (971 : Int) ≤ v → RoundsTo v (.infinite false)

/-! Fractions. -/

theorem roundsTo_wordOf {m : Nat} (h : Canonical m e) (hr : Rounds m e v) :
    RoundsTo v (.ofWord (min (wordOf m e) infinityWord)) := by
  rw [min_eq_left h.wordOf_lt.le, h.ofWord_wordOf]
  exact .finite h hr

theorem roundsTo_infinite (hv : (2 : ℚ) ^ (1024 : Int) ≤ v) : RoundsTo v (.infinite false) := by
  refine .infinite (le_trans ?_ hv)
  calc ((2 : ℚ) ^ 53 - 1 / 2) * 2 ^ (971 : Int) ≤ 2 ^ (53 : Int) * 2 ^ (971 : Int) := by
        rw [zpow_ofNat]
        gcongr
        exact sub_le_self _ (by norm_num)
    _ = 2 ^ (1024 : Int) := (zpow_add₀ two_ne_zero 53 971).symm

/-- A number of units of the last bit, as it comes out of rounding. -/
structure Units (v : ℚ) (q : Nat) (E : Int) : Prop where
  pos : 0 < v
  least : leastExponent ≤ E
  full : leastExponent < E → (2 : ℚ) ^ 52 ≤ v / 2 ^ E
  bound : v / 2 ^ E < 2 ^ 53
  near : HalfEven q (v / 2 ^ E)

namespace Units

variable (h : Units v q E)
include h

theorem le_carry : q ≤ 2 ^ 53 := by
  have hlt : (q : ℚ) < 2 ^ 53 + 1 := by linarith [h.near.low, h.bound]
  exact Nat.le_of_lt_succ (by exact_mod_cast hlt)

theorem le_of_full (hE : leastExponent < E) : 2 ^ 52 ≤ q := by
  have hlt : (2 ^ 52 : ℚ) < q + 1 := by linarith [h.near.high, h.full hE]
  exact Nat.le_of_lt_succ (by exact_mod_cast hlt)

theorem canonical (hpos : 0 < q) (hq : q < 2 ^ 53) (hE : E ≤ 971) : Canonical q E :=
  ⟨hpos, hq, h.least, hE, h.le_of_full⟩

theorem rounds (hpos : 0 < q) : Rounds q E v where
  low := by
    rw [cast_lowEnd hpos]
    split_ifs with hnarrow
    · rw [hnarrow.1]
      push_cast
      linarith [h.full hnarrow.2]
    · exact h.near.low
  high := h.near.high
  strict hodd := by
    have hwide : ¬ Narrow q E := fun hnarrow => by
      rw [hnarrow.1] at hodd
      exact absurd hodd (by decide)
    rw [cast_lowEnd hpos, if_neg hwide]
    exact h.near.strict hodd

/-- A carry makes the next power of two, whose units are twice as large. -/
theorem rounds_carry (hq : q = 2 ^ 53) : Rounds (2 ^ 52) (E + 1) v := by
  have hunit : v / 2 ^ (E + 1) = v / 2 ^ E / 2 := by
    rw [zpow_add_one₀ two_ne_zero, div_div]
  have hnarrow : Narrow (2 ^ 52) (E + 1) := ⟨rfl, Int.lt_add_one_of_le h.least⟩
  have hlow := h.near.low
  have hbound := h.bound
  rw [hq] at hlow
  push_cast at hlow
  refine ⟨?_, ?_, fun hodd => absurd hodd (by decide)⟩
  · rw [cast_lowEnd (by decide), if_pos hnarrow, hunit]
    push_cast
    linarith
  · rw [hunit]
    push_cast
    linarith

/-- With too large units even the smallest full mantissa is beyond all finite doubles. -/
theorem infinite_of_lt (hE : 971 < E) : RoundsTo v (.infinite false) := by
  have hunit : (0 : ℚ) < 2 ^ E := zpow_pos two_pos E
  have hfull := h.full (by rw [leastExponent]; omega)
  rw [le_div_iff₀ hunit] at hfull
  refine roundsTo_infinite (le_trans ?_ hfull)
  calc (2 : ℚ) ^ (1024 : Int) = 2 ^ (52 : Int) * 2 ^ (972 : Int) := zpow_add₀ two_ne_zero 52 972
    _ ≤ 2 ^ 52 * 2 ^ E := by
      rw [zpow_ofNat]
      gcongr
      · exact one_le_two
      · omega

/-- A carry behind the largest mantissa leads beyond all finite doubles as well. -/
theorem infinite_of_carry (hq : q = 2 ^ 53) (hE : E = 971) : RoundsTo v (.infinite false) := by
  have hunit : (0 : ℚ) < 2 ^ E := zpow_pos two_pos E
  have hlow := h.near.low
  rw [hq, Nat.cast_pow, Nat.cast_ofNat, le_div_iff₀ hunit, hE] at hlow
  exact .infinite hlow

theorem roundsTo :
    RoundsTo v (.ofWord (min ((E - leastExponent).toNat * 2 ^ 52 + q) infinityWord)) := by
  have hleast : leastExponent = -1074 := rfl
  have hinfinity : infinityWord = 2047 * 2 ^ 52 := rfl
  have hcarry := h.le_carry
  have hfull := h.le_of_full
  have hE := h.least
  by_cases hlarge : 971 < E ∨ E = 971 ∧ q = 2 ^ 53
  · have hword : min ((E - leastExponent).toNat * 2 ^ 52 + q) infinityWord = infinityWord := by
      rw [min_eq_right]
      omega
    rw [hword]
    show RoundsTo v (.infinite false)
    rcases hlarge with hlt | ⟨heq, hq⟩
    · exact h.infinite_of_lt hlt
    · exact h.infinite_of_carry hq heq
  · rcases Nat.eq_zero_or_pos q with rfl | hpos
    · have hzero : E = leastExponent := by omega
      subst hzero
      have hhalf : v ≤ 1 / 2 * 2 ^ leastExponent := by
        rw [← div_le_iff₀ (zpow_pos two_pos _)]
        simpa using h.near.high
      refine .zero h.pos.le (hhalf.trans_eq ?_)
      rw [show (-1075 : Int) = leastExponent - 1 from rfl, zpow_sub_one₀ two_ne_zero]
      ring
    · rcases hcarry.lt_or_eq with hlt | heq
      · exact roundsTo_wordOf (h.canonical hpos hlt (by omega)) (h.rounds hpos)
      · have hcanonical : Canonical (2 ^ 52) (E + 1) :=
          ⟨by decide, by decide, by omega, by omega, fun _ => le_rfl⟩
        have hword : (E - leastExponent).toNat * 2 ^ 52 + q = wordOf (2 ^ 52) (E + 1) := by
          rw [wordOf]
          omega
        rw [hword]
        exact roundsTo_wordOf hcanonical (h.rounds_carry heq)

end Units

theorem nearestWord_roundsTo (hnum : 0 < num) (hden : 0 < den) :
    RoundsTo (num / den) (.ofWord (nearestWord num den)) := by
  obtain ⟨hlow, hhigh⟩ := log2Ratio_spec hnum hden
  generalize hE : max (log2Ratio num den - fractionBits) leastExponent = E
  have hwidth : (fractionBits : Int) = 52 := rfl
  have hscaled : ((num * twoPow (-E).toNat : Nat) : ℚ) / (den * twoPow E.toNat : Nat) =
      num / den / 2 ^ E := scaled_div num den two_ne_zero E
  have hunits : Units (num / den)
      (roundHalfEven (num * twoPow (-E).toNat) (den * twoPow E.toNat)) E := by
    refine ⟨by positivity, hE ▸ le_max_right _ _, fun hlt => ?_, ?_, ?_⟩
    · have hlog : log2Ratio num den = E + 52 := by omega
      exact (two_zpow_add_le 52).mp (hlog ▸ hlow)
    · refine (lt_two_zpow_add 53).mp (hhigh.trans_le ?_)
      exact zpow_le_zpow_right₀ one_le_two (by push_cast; omega)
    · rw [← hscaled]
      exact halfEven_roundHalfEven _ (Nat.mul_pos hden (Nat.pow_pos two_pos))
  rw [nearestWord_of_unit hnum hE rfl]
  exact hunits.roundsTo

/-- Far outside the range of doubles the number is nearest to zero or to infinity. -/
theorem wordOfDecimal_roundsTo (n : Nat) (k : Int) :
    RoundsTo (n * 10 ^ k) (.ofWord (wordOfDecimal n k)) := by
  by_cases hn : n = 0
  · have hword : wordOfDecimal n k = 0 := by simp [wordOfDecimal, hn]
    rw [hword, hn, Nat.cast_zero, zero_mul]
    exact .zero le_rfl (by positivity)
  obtain ⟨hfirst, hlast⟩ := scaled_bounds hn k
  rw [wordOfDecimal]
  generalize ((Nat.toDigits 10 n).length : Int) + k = top at hfirst hlast
  simp only [hn, decide_false, Bool.false_or, decide_eq_true_eq]
  split_ifs with hsmall hlarge
  · refine .zero (by positivity) (hlast.le.trans (le_trans ?_ tenPow_le_twoPow))
    exact zpow_le_zpow_right₀ (by norm_num) (by omega)
  · refine roundsTo_infinite (twoPow_le_tenPow.trans (le_trans ?_ hfirst))
    exact zpow_le_zpow_right₀ (by norm_num) (by omega)
  · have hpos : ∀ j : Nat, 0 < tenPow j := fun j => Nat.pow_pos (by decide)
    rw [← cast_scaled]
    exact nearestWord_roundsTo (Nat.mul_pos (Nat.pos_of_ne_zero hn) (hpos _)) (hpos _)

/-! Numerals. -/

/-- A power of ten behind a number: nothing; or a mark, a sign that may be left out, and digits. -/
inductive Power : List Char → Int → Prop where
  | none : Power [] 0
  | plain {mark : Char} {ds : List Char} : mark = 'e' ∨ mark = 'E' → AllDigits ds →
      Power (mark :: ds) (natOfDigits ds)
  | plus {mark : Char} {ds : List Char} : mark = 'e' ∨ mark = 'E' → AllDigits ds →
      Power (mark :: '+' :: ds) (natOfDigits ds)
  | minus {mark : Char} {ds : List Char} : mark = 'e' ∨ mark = 'E' → AllDigits ds →
      Power (mark :: '-' :: ds) (-natOfDigits ds)

/-- The numerals with a point or a power of ten, and the numbers they stand for. -/
inductive Fractional : List Char → ℚ → Prop where
  | point {whole fraction power : List Char} {e : Int} : AllDigits whole →
      (∀ c ∈ fraction, c.isDigit = true) → Power power e →
      Fractional (whole ++ '.' :: (fraction ++ power))
        (natOfDigits (whole ++ fraction) * 10 ^ (e - fraction.length))
  | bare {fraction power : List Char} {e : Int} : AllDigits fraction → Power power e →
      Fractional ('.' :: (fraction ++ power)) (natOfDigits fraction * 10 ^ (e - fraction.length))
  | whole {whole power : List Char} {e : Int} : AllDigits whole → power ≠ [] → Power power e →
      Fractional (whole ++ power) (natOfDigits whole * 10 ^ e)

theorem Numeral.fractional (h : Numeral cs) : ∃ v, Fractional cs v := by
  cases h with
  | @point whole fraction hwhole hfraction =>
    have hvalue := Fractional.point hwhole hfraction.digit .none
    rw [List.append_nil] at hvalue
    exact ⟨_, hvalue⟩
  | @exponent whole fraction sign digits hwhole hfraction hsign hdigits =>
    obtain ⟨e, hpower⟩ : ∃ e, Power ('e' :: (sign ++ digits)) e := by
      rcases hsign with rfl | rfl
      · exact ⟨_, .plain (Or.inl rfl) hdigits⟩
      · exact ⟨_, .minus (Or.inl rfl) hdigits⟩
    rcases hfraction with rfl | ⟨ds, hds, rfl⟩
    · rw [List.append_nil]
      exact ⟨_, .whole hwhole nofun hpower⟩
    · rw [List.append_assoc]
      exact ⟨_, .point hwhole hds.digit hpower⟩

theorem Power.head (h : Power cs e) : ∀ c, cs.head? = some c → c.isDigit = false := by
  rintro c hc
  cases h with
  | none => cases hc
  | plain hmark | plus hmark | minus hmark =>
    cases hc
    rcases hmark with rfl | rfl <;> rfl

theorem Power.read (h : Power cs e) : readExponent cs = some e := by
  have hdigits : ∀ {ds : List Char}, AllDigits ds → readDigits ds = some (natOfDigits ds) :=
    fun hds => readDigits_eq hds.ne_nil hds.digit
  have hmarked : ∀ {mark : Char} {tail : List Char}, mark = 'e' ∨ mark = 'E' →
      readExponent (mark :: tail) = (readDigits (cutSign tail).2).map fun n =>
        if (cutSign tail).1 then -(n : Int) else n := by
    intro mark tail hmark
    simp only [readExponent, Bool.or_eq_true, decide_eq_true_eq, if_pos hmark]
  cases h with
  | none => rfl
  | plain hmark hds =>
    obtain ⟨c, rest, rfl, hc⟩ := hds.exists_cons
    rw [hmarked hmark, cutSign_of_isDigit hc, hdigits hds]
    rfl
  | plus hmark hds | minus hmark hds =>
    rw [hmarked hmark]
    simp only [cutSign, hdigits hds]
    rfl

theorem ofFloat_floatOfWord {word : Nat} (h : word ≤ infinityWord) :
    Binary.ofFloat (floatOfWord false word) = .ofWord word := by
  rw [Binary.ofFloat, toBits_floatOfWord h]

/-- Every such numeral is read as the double nearest to the number it stands for. -/
theorem Fractional.read (h : Fractional cs v) :
    ∃ x, Decimal.read cs = .ok x ∧ RoundsTo v (.ofFloat x) := by
  have hread : ∀ {c : Char} {rest : List Char} {n : Nat} {k : Int}, c.isDigit = true ∨ c = '.' →
      readMagnitude (c :: rest) = some (wordOfDecimal n k) →
      ∃ x, Decimal.read (c :: rest) = .ok x ∧ RoundsTo (n * 10 ^ k) (.ofFloat x) := by
    intro c rest n k hc hmagnitude
    refine ⟨_, read_of_magnitude hc hmagnitude, ?_⟩
    rw [ofFloat_floatOfWord (wordOfDecimal_le n k)]
    exact wordOfDecimal_roundsTo n k
  cases h with
  | @point whole fraction power e hwhole hfraction hpower =>
    have hmagnitude := readMagnitude_point hwhole.digit hfraction
      (List.append_ne_nil_of_left_ne_nil hwhole.ne_nil _) hpower.head
    rw [hpower.read] at hmagnitude
    obtain ⟨c, rest, rfl, hc⟩ := hwhole.exists_cons
    exact hread (Or.inl hc) hmagnitude
  | @bare fraction power e hfraction hpower =>
    have hmagnitude : readMagnitude ([] ++ '.' :: (fraction ++ power)) = _ :=
      readMagnitude_point nofun hfraction.digit hfraction.ne_nil hpower.head
    rw [hpower.read] at hmagnitude
    exact hread (Or.inr rfl) hmagnitude
  | @whole whole power e hwhole hne hpower =>
    have hmagnitude : readMagnitude (whole ++ power) =
        some (wordOfDecimal (natOfDigits whole) e) := by
      have hexponent := hpower.read
      cases hpower with
      | none => exact absurd rfl hne
      | plain hmark | plus hmark | minus hmark =>
        rw [readMagnitude_whole hwhole hmark, hexponent]
        rfl
    obtain ⟨c, rest, rfl, hc⟩ := hwhole.exists_cons
    exact hread (Or.inl hc) hmagnitude

end CanonicalLR.Decimal
