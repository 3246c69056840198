import CanonicalLR.Proofs.Decimal.Rounding

/-! Doubles and their words. A finite double is nothing but its word, and the word of a finite double
without sign is made of a mantissa and an exponent. -/

namespace CanonicalLR.Decimal

open Float.Model Float.Model.UnpackedFloat

variable {word : Nat} {b : BitVec Format.binary64.numBits}

/-! Packing what was unpacked. -/

theorem toBitVec_ofBitVec (v : BitVec 1) : (Sign.ofBitVec v).toBitVec = v := by
  have hall : ∀ v : BitVec 1, (Sign.ofBitVec v).toBitVec = v := by decide
  exact hall v

theorem packComponents_unpacked {exponent : BitVec 11} {mantissa : BitVec 52}
    (he : unpackExponent b = exponent) (hm : unpackMantissa b = mantissa) :
    packComponents Format.binary64 (Sign.ofBitVec (unpackSign b)) exponent mantissa = b := by
  subst he hm
  delta packComponents unpackSign unpackExponent unpackMantissa
  simp only [toBitVec_ofBitVec, BitVec.extractLsb]
  ext i hi
  grind

section Pack

variable {sign : Sign} {m : Nat} {e : Int} {hm : 0 < m}

theorem pack_subnormal (he : e = -1074) (hlt : m < 2 ^ 52) :
    UnpackedFloat.pack Format.binary64 (.finite sign m e hm) =
      packComponents Format.binary64 sign 0#11 (BitVec.ofNat 52 m) := by
  have hlog : m.log2 < 52 := (Nat.log2_lt hm.ne').mpr hlt
  have hbiased : (e + Format.binary64.exponentBias +
      Format.binary64.mantissaBitsWithoutImplicit).toNat = 1 := by
    rw [he]
    rfl
  have hbits : m.log2 + 1 ≠ Format.binary64.mantissaBits := Nat.ne_of_lt (Nat.succ_lt_succ hlog)
  delta UnpackedFloat.pack
  dsimp only
  rw [hbiased, if_neg (by decide), if_neg hbits]

theorem pack_normal {E : Nat} (he : e = E - 1075) (hE : E < 2047) (hle : 2 ^ 52 ≤ m)
    (hlt : m < 2 ^ 53) : UnpackedFloat.pack Format.binary64 (.finite sign m e hm) =
      packComponents Format.binary64 sign (BitVec.ofNat 11 E) (BitVec.ofNat 52 m) := by
  have hlog : m.log2 = 52 := (Nat.log2_eq_iff hm.ne').mpr ⟨hle, hlt⟩
  have hbiased : (e + Format.binary64.exponentBias +
      Format.binary64.mantissaBitsWithoutImplicit).toNat = E := by
    have hbias : ((Format.binary64.exponentBias : Nat) : Int) = 1023 := rfl
    have hwidth : ((Format.binary64.mantissaBitsWithoutImplicit : Nat) : Int) = 52 := rfl
    rw [he, hbias, hwidth]
    omega
  have hfits : ¬ 2 ^ Format.binary64.exponentBits ≤ E + 1 := by
    show ¬ 2 ^ 11 ≤ E + 1
    omega
  have hbits : m.log2 + 1 = Format.binary64.mantissaBits := by
    rw [hlog]
    rfl
  delta UnpackedFloat.pack
  dsimp only
  rw [hbiased, if_neg hfits, if_pos hbits]

end Pack

theorem pack_unpack (h : unpackExponent b ≠ (-1#_)) :
    UnpackedFloat.pack Format.binary64 (UnpackedFloat.unpack Format.binary64 b) = b := by
  have hbias : ((Format.binary64.exponentBias : Nat) : Int) = 1023 := rfl
  have hwidth : ((Format.binary64.mantissaBitsWithoutImplicit : Nat) : Int) = 52 := rfl
  have hmantissa : (unpackMantissa b).toNat < 2 ^ 52 := (unpackMantissa b).isLt
  delta UnpackedFloat.unpack
  dsimp only
  rw [if_neg h]
  by_cases hzero : unpackExponent b = 0#11
  · have hexponent : (unpackExponent b).toNat = 0 := congrArg BitVec.toNat hzero
    rw [if_pos hzero]
    by_cases hnone : unpackMantissa b = 0#52
    · rw [dif_pos hnone]
      exact packComponents_unpacked hzero hnone
    · rw [dif_neg hnone, pack_subnormal (by rw [hexponent, hbias, hwidth]; rfl) hmantissa]
      exact packComponents_unpacked hzero (BitVec.ofNat_toNat _ _ ▸ (BitVec.setWidth_eq _).symm)
  · have hexponent : (unpackExponent b).toNat < 2047 := by
      have hlt : (unpackExponent b).toNat < 2 ^ 11 := (unpackExponent b).isLt
      have hne : (unpackExponent b).toNat ≠ 2047 := fun h' => h (BitVec.eq_of_toNat_eq h')
      omega
    have hfull : (1#1 ++ unpackMantissa b).toNat = 2 ^ 52 + (unpackMantissa b).toNat := by
      rw [BitVec.toNat_append, ← Nat.shiftLeft_add_eq_or_of_lt (unpackMantissa b).isLt,
        Nat.shiftLeft_eq]
      rfl
    rw [if_neg hzero, pack_normal (by rw [hbias, hwidth]; ring) hexponent (by omega) (by omega)]
    refine packComponents_unpacked ?_ ?_
    · rw [BitVec.ofNat_toNat, BitVec.setWidth_eq]
    · rw [← BitVec.toNat_inj, BitVec.toNat_ofNat, hfull, Nat.add_mod_left, Nat.mod_eq_of_lt hmantissa]

theorem unpackExponent_of_isFinite {x : Float} (h : x.isFinite = true) :
    @unpackExponent Format.binary64 x.toBits.toBitVec ≠ (-1#_) := by
  intro hones
  have hnot : (UnpackedFloat.unpack Format.binary64 x.toBits.toBitVec).isFinite = false := by
    delta UnpackedFloat.unpack
    dsimp only
    rw [if_pos hones]
    split <;> rfl
  have hfinite : (UnpackedFloat.unpack Format.binary64 x.toBits.toBitVec).isFinite = true := h
  rw [hnot] at hfinite
  cases hfinite

theorem toBits_ofBits_of_exponent {w : UInt64}
    (h : @unpackExponent Format.binary64 w.toBitVec ≠ (-1#_)) : (Float.ofBits w).toBits = w := by
  have hbits : (Float.ofBits w).toBits.toBitVec =
      UnpackedFloat.pack Format.binary64 (UnpackedFloat.unpack Format.binary64 w.toBitVec) := rfl
  exact UInt64.toBitVec_inj.mp (hbits.trans (pack_unpack h))

theorem toBits_ofBits {w : UInt64} (h : (Float.ofBits w).isFinite = true) :
    (Float.ofBits w).toBits = w := by
  have hbits : (Float.ofBits w).toBits.toBitVec =
      UnpackedFloat.pack Format.binary64 (UnpackedFloat.unpack Format.binary64 w.toBitVec) := rfl
  refine toBits_ofBits_of_exponent fun hones => unpackExponent_of_isFinite h ?_
  rw [hbits]
  delta UnpackedFloat.unpack
  dsimp only
  rw [if_pos hones]
  split
  · exact unpackExponent_packComponents
  · exact unpackExponent_packComponents

/-! Doubles without a sign. -/

def Unsigned (x : Float) : Prop := ∃ word < 2 ^ 63, x = floatOfWord false word

theorem toNat_unpackExponent (w : UInt64) :
    (@unpackExponent Format.binary64 w.toBitVec).toNat = w.toNat / 2 ^ 52 % 2 ^ 11 := by
  rw [unpackExponent, BitVec.toNat_cast, BitVec.extractLsb_toNat, Nat.shiftRight_eq_div_pow]
  rfl

theorem toNat_signWord_add (h : word < 2 ^ 63) :
    (UInt64.ofNat (signWord false + word)).toNat = word := by
  have hsign : signWord false + word = word := Nat.zero_add word
  rw [hsign, UInt64.toNat_ofNat_of_lt']
  exact h.trans (by decide)

theorem Unsigned.exists_word {x : Float} (h : Unsigned x) (hfinite : x.isFinite = true) :
    ∃ word < infinityWord, x = floatOfWord false word ∧ x.toBits.toNat = word := by
  obtain ⟨word, hword, rfl⟩ := h
  have hinfinity : infinityWord = 2047 * 2 ^ 52 := rfl
  have hbits : (floatOfWord false word).toBits.toNat = word := by
    rw [floatOfWord, toBits_ofBits hfinite, toNat_signWord_add hword]
  refine ⟨word, ?_, rfl, hbits⟩
  by_contra hlarge
  refine unpackExponent_of_isFinite hfinite (BitVec.eq_of_toNat_eq ?_)
  rw [toNat_unpackExponent, hbits]
  have hones : (-1#11).toNat = 2047 := rfl
  exact Eq.trans (by omega) hones.symm

theorem toBits_floatOfWord (h : word ≤ infinityWord) :
    (floatOfWord false word).toBits.toNat = word := by
  rcases h.eq_or_lt with rfl | hlt
  · decide +kernel
  · have hlt' : word < 2047 * 2 ^ 52 := hlt
    have hword : (UInt64.ofNat (signWord false + word)).toNat = word :=
      toNat_signWord_add (by omega)
    rw [floatOfWord, toBits_ofBits_of_exponent, hword]
    intro hones
    have hfield := congrArg BitVec.toNat hones
    have hlast : (-1#11).toNat = 2047 := rfl
    rw [toNat_unpackExponent, hword] at hfield
    exact absurd (hfield.trans hlast) (by omega)

theorem ofWord_cases (h : word < infinityWord) :
    (word = 0 ∧ Binary.ofWord word = .finite false 0 leastExponent) ∨
      ∃ m e, Canonical m e ∧ word = wordOf m e ∧ Binary.ofWord word = .finite false m e := by
  have hlt : word < 2047 * 2 ^ 52 := h
  have hsign : word.testBit 63 = false := Nat.testBit_lt_two_pow (by omega)
  have hmagnitude : word % twoPow 63 = word := Nat.mod_eq_of_lt (show word < 2 ^ 63 by omega)
  have hword : Binary.ofWord word =
      if word / 2 ^ 52 = 0 then .finite false (word % 2 ^ 52) leastExponent
      else .finite false (2 ^ 52 + word % 2 ^ 52) (leastExponent + (word / 2 ^ 52 - 1 : Nat)) := by
    simp only [Binary.ofWord, hsign, hmagnitude, if_neg h.ne, if_neg h.not_gt]
    rfl
  have hleast : leastExponent = -1074 := rfl
  by_cases hfield : word / 2 ^ 52 = 0
  · rw [if_pos hfield] at hword
    have hfraction : word % 2 ^ 52 = word := by omega
    rw [hfraction] at hword
    rcases Nat.eq_zero_or_pos word with rfl | hpos
    · exact Or.inl ⟨rfl, hword⟩
    · have hleast : ¬ leastExponent < leastExponent := lt_irrefl _
      refine Or.inr ⟨word, leastExponent,
        ⟨hpos, by omega, le_rfl, by decide, fun hlt => absurd hlt hleast⟩, ?_, hword⟩
      rw [wordOf, sub_self, Int.toNat_zero, Nat.zero_mul, Nat.zero_add]
  · rw [if_neg hfield] at hword
    refine Or.inr ⟨_, _, ⟨by omega, by omega, by omega, by omega, fun _ => by omega⟩, ?_, hword⟩
    rw [wordOf]
    omega

theorem Canonical.ofWord_wordOf {m : Nat} {e : Int} (h : Canonical m e) :
    Binary.ofWord (wordOf m e) = .finite false m e := by
  have hleast : leastExponent = -1074 := rfl
  rcases ofWord_cases h.wordOf_lt with ⟨hzero, -⟩ | ⟨m', e', h', hword, hbinary⟩
  · rw [wordOf] at hzero
    have := h.pos
    omega
  · -- the word tells apart mantissas and exponents, since all but the smallest mantissas are full
    have hsame : m = m' ∧ e = e' := by
      obtain ⟨hpos, hbound, hle, -, hfull⟩ := h
      obtain ⟨hpos', hbound', hle', -, hfull'⟩ := h'
      rw [wordOf, wordOf] at hword
      omega
    rw [hbinary, hsame.1, hsame.2]

end CanonicalLR.Decimal
