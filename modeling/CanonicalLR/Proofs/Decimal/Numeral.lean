import CanonicalLR.Decimal.Reading
import CanonicalLR.Decimal.Style
import CanonicalLR.Proofs.Decimal.Rounding
import CanonicalLR.Proofs.Text
import Mathlib.Data.List.TakeWhile

/-! Decimal numerals. What a literal is written with is read again as the number that its digits
stand for, wherever its point stands. -/

namespace CanonicalLR.Decimal

open Text

variable {ds : List Char} {d : Digits} {m n : Nat} {e : Int}

/-! Digits. -/

theorem natOfDigits_append (front back : List Char) :
    natOfDigits (front ++ back) = natOfDigits front * 10 ^ back.length + natOfDigits back := by
  rw [natOfDigits_eq, Nat.ofDigitChars_append, Nat.ofDigitChars_eq_ofDigitChars_zero,
    natOfDigits_eq, natOfDigits_eq, Nat.mul_comm]

/-- Digits, at least one of them. -/
structure AllDigits (ds : List Char) : Prop where
  ne_nil : ds ≠ []
  digit : ∀ c ∈ ds, c.isDigit = true

theorem allDigits_toDigits (n : Nat) : AllDigits (Nat.toDigits 10 n) :=
  ⟨Nat.toDigits_ne_nil, fun _ hc => isDigit_of_mem hc⟩

theorem AllDigits.append {front back : List Char} (h : AllDigits front)
    (hback : ∀ c ∈ back, c.isDigit = true) : AllDigits (front ++ back) :=
  ⟨List.append_ne_nil_of_left_ne_nil h.ne_nil back, List.forall_mem_append.mpr ⟨h.digit, hback⟩⟩

theorem isDigit_zeros {k : Nat} : ∀ c ∈ zeros k, c.isDigit = true := by
  intro c hc
  rw [List.eq_of_mem_replicate hc]
  rfl

theorem natOfDigits_zeros (k : Nat) : natOfDigits (zeros k) = 0 := by
  rw [natOfDigits_eq, zeros, Nat.ofDigitChars_replicate_zero, mul_zero]

/-- The number that digits behind a point stand for. -/
def Digits.value (d : Digits) : ℚ := natOfDigits d.digits * 10 ^ (d.point - d.digits.length)

theorem exists_stripZeros (cs : List Char) : ∃ k, cs = stripZeros cs ++ zeros k := by
  refine ⟨(cs.reverse.takeWhile (· == '0')).length, ?_⟩
  have hzeros : cs.reverse.takeWhile (· == '0') =
      zeros (cs.reverse.takeWhile (· == '0')).length := by
    refine List.eq_replicate_iff.mpr ⟨rfl, fun c hc => ?_⟩
    have hzero := List.mem_takeWhile_imp hc
    exact beq_iff_eq.mp hzero
  have hsplit : cs = stripZeros cs ++ (cs.reverse.takeWhile (· == '0')).reverse := by
    rw [stripZeros, ← List.reverse_append, List.takeWhile_append_dropWhile, List.reverse_reverse]
  rw [hzeros, zeros, List.reverse_replicate] at hsplit
  exact hsplit

theorem allDigits_zero : AllDigits ['0'] := ⟨nofun, List.forall_mem_singleton.mpr rfl⟩

/-- Without the zeros at their end the digits of a number stand for the same. -/
theorem digitsOf (hn : n ≠ 0) (p : Int) :
    AllDigits (Digits.of n p).digits ∧ (Digits.of n p).value = n * 10 ^ p := by
  obtain ⟨k, hk⟩ := exists_stripZeros (Nat.toDigits 10 n)
  have hvalue : n = natOfDigits (stripZeros (Nat.toDigits 10 n)) * 10 ^ k := by
    have happend := natOfDigits_append (stripZeros (Nat.toDigits 10 n)) (zeros k)
    rwa [← hk, natOfDigits_toDigits, natOfDigits_zeros, Nat.add_zero, zeros,
      List.length_replicate] at happend
  have hlength : (Nat.toDigits 10 n).length = (stripZeros (Nat.toDigits 10 n)).length + k := by
    conv_lhs => rw [hk]
    rw [List.length_append, zeros, List.length_replicate]
  refine ⟨⟨?_, fun c hc => ?_⟩, ?_⟩
  · intro hnil
    rw [show stripZeros (Nat.toDigits 10 n) = [] from hnil] at hvalue
    exact hn (hvalue.trans (Nat.zero_mul _))
  · refine isDigit_of_mem (n := n) ?_
    rw [hk]
    exact List.mem_append_left _ hc
  · have hpoint : (Digits.of n p).point - (Digits.of n p).digits.length = p + k := by
      simp only [Digits.of, hlength]
      push_cast
      ring
    have hdigits : ((natOfDigits (Digits.of n p).digits : Nat) : ℚ) * 10 ^ k = n := by
      exact_mod_cast hvalue.symm
    rw [Digits.value, hpoint, zpow_add₀ (by norm_num), zpow_natCast, mul_left_comm, hdigits, mul_comm]

/-! Numerals. -/

/-- Digits, a point and digits; or digits with an optional fraction and an exponent. -/
inductive Numeral : List Char → Prop where
  | point {whole fraction : List Char} : AllDigits whole → AllDigits fraction →
      Numeral (whole ++ '.' :: fraction)
  | exponent {whole fraction sign power : List Char} : AllDigits whole →
      (fraction = [] ∨ ∃ ds, AllDigits ds ∧ fraction = '.' :: ds) →
      (sign = [] ∨ sign = ['-']) → AllDigits power →
      Numeral (whole ++ fraction ++ 'e' :: (sign ++ power))

theorem exists_point (hd : AllDigits d.digits) : ∃ whole fraction,
    AllDigits whole ∧ AllDigits fraction ∧
      Style.literal.positionalText d = whole ++ '.' :: fraction ∧
      (natOfDigits (whole ++ fraction) : ℚ) * 10 ^ (-(fraction.length : Int)) = d.value := by
  have hpos : 0 < d.digits.length := List.length_pos_of_ne_nil hd.ne_nil
  simp only [Style.positionalText]
  split_ifs with hpoint hwhole
  · refine ⟨['0'], zeros (-d.point).toNat ++ d.digits, allDigits_zero, ⟨?_, ?_⟩, rfl, ?_⟩
    · exact List.append_ne_nil_of_right_ne_nil _ hd.ne_nil
    · exact List.forall_mem_append.mpr ⟨isDigit_zeros, hd.digit⟩
    · have hzero : natOfDigits ['0'] = 0 := rfl
      have hvalue : natOfDigits (['0'] ++ (zeros (-d.point).toNat ++ d.digits)) =
          natOfDigits d.digits := by
        rw [natOfDigits_append, natOfDigits_append, natOfDigits_zeros, hzero, Nat.zero_mul,
          Nat.zero_mul, Nat.zero_add, Nat.zero_add]
      have hlength : -((zeros (-d.point).toNat ++ d.digits).length : Int) =
          d.point - d.digits.length := by
        rw [List.length_append, zeros, List.length_replicate]
        omega
      rw [hvalue, hlength, Digits.value]
  · refine ⟨d.digits ++ zeros (d.point.toNat - d.digits.length), ['0'], hd.append isDigit_zeros,
      allDigits_zero, rfl, ?_⟩
    have hzero : natOfDigits ['0'] = 0 := rfl
    have hvalue : natOfDigits (d.digits ++ zeros (d.point.toNat - d.digits.length) ++ ['0']) =
        natOfDigits d.digits * 10 ^ (d.point.toNat - d.digits.length) * 10 := by
      rw [natOfDigits_append, natOfDigits_append, natOfDigits_zeros, hzero, zeros,
        List.length_replicate, Nat.add_zero, Nat.add_zero]
      rfl
    have hlength : d.point - d.digits.length = (d.point.toNat - d.digits.length : Nat) := by omega
    rw [hvalue, Digits.value, hlength, zpow_natCast]
    simp
  · refine ⟨d.digits.take d.point.toNat, d.digits.drop d.point.toNat, ⟨?_, ?_⟩, ⟨?_, ?_⟩, ?_, ?_⟩
    · rw [Ne, List.take_eq_nil_iff, not_or]
      exact ⟨by omega, hd.ne_nil⟩
    · exact fun c hc => hd.digit c (List.mem_of_mem_take hc)
    · rw [Ne, List.drop_eq_nil_iff]
      omega
    · exact fun c hc => hd.digit c (List.mem_of_mem_drop hc)
    · rw [List.append_assoc, List.singleton_append]
    · have hlength : -((d.digits.drop d.point.toNat).length : Int) = d.point - d.digits.length := by
        rw [List.length_drop]
        omega
      rw [List.take_append_drop, hlength, Digits.value]

theorem AllDigits.exists_cons (h : AllDigits ds) : ∃ c cs, ds = c :: cs ∧ c.isDigit = true := by
  obtain ⟨c, cs, rfl⟩ := List.exists_cons_of_ne_nil h.ne_nil
  exact ⟨c, cs, rfl, h.digit c List.mem_cons_self⟩

theorem cutSign_of_isDigit {c : Char} {cs : List Char} (hc : c.isDigit = true) :
    cutSign (c :: cs) = (false, c :: cs) := by
  have hminus : c ≠ '-' := by
    rintro rfl
    cases hc
  have hplus : c ≠ '+' := by
    rintro rfl
    cases hc
  simp [cutSign, hminus, hplus]

theorem exists_intText (n : Int) : ∃ sign, (sign = [] ∨ sign = ['-']) ∧
    intText n = sign ++ Nat.toDigits 10 n.natAbs ∧ readExponent ('e' :: intText n) = some n := by
  rw [intText]
  split_ifs with hn
  · refine ⟨['-'], Or.inr rfl, rfl, ?_⟩
    have hvalue : -(n.natAbs : Int) = n := by omega
    simp only [readExponent, cutSign, readDigits_toDigits]
    exact congrArg some hvalue
  · refine ⟨[], Or.inl rfl, rfl, ?_⟩
    have hvalue : (n.natAbs : Int) = n := by omega
    have hcut : cutSign (Nat.toDigits 10 n.natAbs) = (false, Nat.toDigits 10 n.natAbs) := by
      obtain ⟨c, cs, hcs, hc⟩ := (allDigits_toDigits n.natAbs).exists_cons
      rw [hcs, cutSign_of_isDigit hc]
    simp only [readExponent, hcut, readDigits_toDigits]
    exact congrArg some hvalue

theorem span_digits {rest : List Char} (hds : ∀ c ∈ ds, c.isDigit = true)
    (hrest : ∀ c, rest.head? = some c → c.isDigit = false) :
    (ds ++ rest).takeWhile Char.isDigit = ds ∧ (ds ++ rest).dropWhile Char.isDigit = rest := by
  rw [List.takeWhile_append_of_pos hds, List.dropWhile_append_of_pos hds]
  cases rest with
  | nil => exact ⟨List.append_nil ds, rfl⟩
  | cons c rest =>
    have hc : ¬ c.isDigit = true := by simp [hrest c rfl]
    rw [List.takeWhile_cons_of_neg hc, List.dropWhile_cons_of_neg hc, List.append_nil]
    exact ⟨rfl, rfl⟩

theorem readMagnitude_point {whole fraction tail : List Char}
    (hwhole : ∀ c ∈ whole, c.isDigit = true) (hfraction : ∀ c ∈ fraction, c.isDigit = true)
    (hdigits : whole ++ fraction ≠ []) (htail : ∀ c, tail.head? = some c → c.isDigit = false) :
    readMagnitude (whole ++ '.' :: (fraction ++ tail)) = (readExponent tail).map fun e =>
      wordOfDecimal (natOfDigits (whole ++ fraction)) (e - fraction.length) := by
  have hpoint : ∀ c, ('.' :: (fraction ++ tail)).head? = some c → c.isDigit = false := by
    rintro c ⟨⟩
    rfl
  obtain ⟨htake, hdrop⟩ := span_digits hwhole hpoint
  obtain ⟨htake', hdrop'⟩ := span_digits hfraction htail
  have hne : (whole ++ fraction).isEmpty = false := List.isEmpty_eq_false_iff.mpr hdigits
  simp only [readMagnitude, htake, hdrop, htake', hdrop', hne]
  rfl

theorem readMagnitude_whole {whole tail : List Char} {mark : Char} (hwhole : AllDigits whole)
    (hmark : mark = 'e' ∨ mark = 'E') :
    readMagnitude (whole ++ mark :: tail) = (readExponent (mark :: tail)).map fun e =>
      wordOfDecimal (natOfDigits whole) e := by
  have hhead : ∀ c, (mark :: tail).head? = some c → c.isDigit = false := by
    rintro c ⟨⟩
    rcases hmark with rfl | rfl <;> rfl
  obtain ⟨htake, hdrop⟩ := span_digits hwhole.digit hhead
  have hne : whole.isEmpty = false := List.isEmpty_eq_false_iff.mpr hwhole.ne_nil
  rcases hmark with rfl | rfl <;> simp [readMagnitude, htake, hdrop, hne]

/-- What stands for this value when it is read. -/
def Denotes (text : List Char) (v : ℚ) : Prop :=
  ∃ (digits : Nat) (exponent : Int), readMagnitude text = some (wordOfDecimal digits exponent) ∧
    (digits : ℚ) * 10 ^ exponent = v

theorem positionalText_denotes (hd : AllDigits d.digits) :
    Numeral (Style.literal.positionalText d) ∧ Denotes (Style.literal.positionalText d) d.value := by
  obtain ⟨whole, fraction, hwhole, hfraction, htext, hvalue⟩ := exists_point hd
  rw [htext]
  refine ⟨.point hwhole hfraction, _, _, ?_, hvalue⟩
  have hnone : ∀ c, ([] : List Char).head? = some c → c.isDigit = false := nofun
  have hread := readMagnitude_point hwhole.digit hfraction.digit (by simp [hwhole.ne_nil]) hnone
  rw [List.append_nil] at hread
  rw [hread, ← zero_sub]
  rfl

theorem exponentText_denotes (hd : AllDigits d.digits) :
    Numeral (exponentText d) ∧ Denotes (exponentText d) d.value := by
  obtain ⟨sign, hsign, htext, hread⟩ := exists_intText (d.point - 1)
  obtain ⟨digits, point⟩ := d
  have hpower := allDigits_toDigits (point - 1).natAbs
  rcases digits with _ | ⟨c, _ | ⟨c', cs⟩⟩
  · exact absurd rfl hd.ne_nil
  · constructor
    · have hnumeral := Numeral.exponent hd (Or.inl rfl) hsign hpower
      rwa [← htext] at hnumeral
    · refine ⟨natOfDigits [c], point - 1, ?_, rfl⟩
      exact (readMagnitude_whole hd (Or.inl rfl)).trans (by rw [hread]; rfl)
  · have hwhole : AllDigits [c] :=
      ⟨nofun, fun x hx => hd.digit x (List.mem_singleton.mp hx ▸ List.mem_cons_self)⟩
    have hfraction : AllDigits (c' :: cs) :=
      ⟨nofun, fun x hx => hd.digit x (List.mem_cons_of_mem c hx)⟩
    constructor
    · have hnumeral := Numeral.exponent hwhole (Or.inr ⟨_, hfraction, rfl⟩) hsign hpower
      rwa [← htext] at hnumeral
    · refine ⟨natOfDigits (c :: c' :: cs), point - 1 - (c' :: cs).length, ?_, ?_⟩
      · have htail : ∀ x, ('e' :: intText (point - 1)).head? = some x → x.isDigit = false := by
          rintro x ⟨⟩
          rfl
        exact (readMagnitude_point hwhole.digit hfraction.digit (by simp) htail).trans
          (by rw [hread]; rfl)
      · rw [Digits.value]
        simp only [List.length_cons]
        congr 2
        push_cast
        ring

end CanonicalLR.Decimal
