import CanonicalLR.Text.Blank
import CanonicalLR.Text.Lines
import CanonicalLR.Text.Numeral
import Mathlib.Tactic.Common

/-! Texts that are put together from fields and lines, and how they come apart again. -/

namespace CanonicalLR.Text

theorem toNat_of_isDigit {c : Char} (h : c.isDigit = true) : 48 ≤ c.toNat ∧ c.toNat ≤ 57 := by
  simpa [Char.isDigit, UInt32.le_iff_toNat_le] using h

theorem toNat_of_isLower {c : Char} (h : c.isLower = true) : 97 ≤ c.toNat ∧ c.toNat ≤ 122 := by
  obtain ⟨hlow, hhigh⟩ := (Bool.and_eq_true _ _).mp h
  exact ⟨UInt32.le_iff_toNat_le.mp (of_decide_eq_true hlow),
    UInt32.le_iff_toNat_le.mp (of_decide_eq_true hhigh)⟩

theorem toNat_of_isUpper {c : Char} (h : c.isUpper = true) : 65 ≤ c.toNat ∧ c.toNat ≤ 90 := by
  have hrange : 'A'.val ≤ c.val ∧ c.val ≤ 'Z'.val := of_decide_eq_true h
  exact ⟨UInt32.le_iff_toNat_le.mp hrange.1, UInt32.le_iff_toNat_le.mp hrange.2⟩

theorem isBlank_of_printed {c : Char} (hlow : 33 ≤ c.toNat) (hhigh : c.toNat ≤ 126) :
    isBlank c = false := by
  simp only [isBlank, Bool.or_eq_false_iff, Bool.and_eq_false_iff, decide_eq_false_iff_not,
    beq_eq_false_iff_ne]
  omega

theorem isBlank_of_isDigit {c : Char} (h : c.isDigit = true) : isBlank c = false := by
  have hrange := toNat_of_isDigit h
  exact isBlank_of_printed (by omega) (by omega)

theorem isBlank_of_isAlpha {c : Char} (h : c.isAlpha = true) : isBlank c = false := by
  rcases Bool.or_eq_true_iff.mp h with h | h
  · have hrange := toNat_of_isUpper h
    exact isBlank_of_printed (by omega) (by omega)
  · have hrange := toNat_of_isLower h
    exact isBlank_of_printed (by omega) (by omega)

theorem trim_eq_self {cs : List Char} (h : ∀ c ∈ cs, isBlank c = false) : trim cs = cs := by
  have hend : ∀ {ds : List Char}, (∀ c ∈ ds, isBlank c = false) → ds.dropWhile isBlank = ds := by
    intro ds hds
    cases ds with
    | nil => rfl
    | cons c ds => rw [List.dropWhile_cons_of_neg (by simp [hds c])]
  rw [trim, trimEnd, hend h, hend fun c hc => h c (List.mem_reverse.mp hc), List.reverse_reverse]

/-! Numerals. -/

theorem isDigit_of_mem {n : Nat} {c : Char} (h : c ∈ Nat.toDigits 10 n) : c.isDigit = true :=
  Nat.isDigit_of_mem_toDigits (by decide) (by decide) h

theorem natOfDigits_eq (cs : List Char) : natOfDigits cs = Nat.ofDigitChars 10 cs 0 :=
  Nat.ofDigitChars_eq_foldl.symm

theorem natOfDigits_toDigits (n : Nat) : natOfDigits (Nat.toDigits 10 n) = n := by
  rw [natOfDigits_eq, Nat.ofDigitChars_ten_toDigits]

section Digits

variable {cs : List Char} (hne : cs ≠ []) (hdigit : ∀ c ∈ cs, c.isDigit = true)
include hne hdigit

theorem readDigits_eq : readDigits cs = some (natOfDigits cs) := by
  rw [readDigits, List.isEmpty_eq_false_iff.mpr hne, List.all_eq_true.mpr hdigit]
  rfl

theorem readNat_eq (limit : Nat) :
    readNat limit cs = if natOfDigits cs ≤ limit then some (natOfDigits cs) else none := by
  have hdigits := readDigits_eq hne hdigit
  obtain ⟨c, rest, rfl⟩ := List.exists_cons_of_ne_nil hne
  have hplus : c ≠ '+' := by
    rintro rfl
    cases hdigit _ List.mem_cons_self
  simp [readNat, hplus, hdigits, Option.filter_some]

end Digits

theorem readDigits_toDigits (n : Nat) : readDigits (Nat.toDigits 10 n) = some n := by
  rw [readDigits_eq Nat.toDigits_ne_nil fun _ => isDigit_of_mem, natOfDigits_toDigits]

theorem readNat_toDigits {limit n : Nat} (h : n ≤ limit) :
    readNat limit (Nat.toDigits 10 n) = some n := by
  rw [readNat_eq Nat.toDigits_ne_nil fun _ => isDigit_of_mem, natOfDigits_toDigits, if_pos h]

/-! Fields and lines. -/

section Fields

variable {α : Type} [DecidableEq α] {separator : α} {front back : List α}

theorem fields_cons_of_ne {x : α} (hne : x ≠ separator) (xs : List α) :
    fields separator (x :: xs) = prepend x (fields separator xs) := by
  rw [fields, List.foldr_cons, if_neg hne, fields]

theorem fields_eq_singleton (h : separator ∉ front) : fields separator front = [front] := by
  induction front with
  | nil => rfl
  | cons x front ih =>
    have hne : x ≠ separator := fun he => h (he ▸ List.mem_cons_self)
    rw [fields_cons_of_ne hne, ih fun hmem => h (List.mem_cons_of_mem _ hmem), prepend]

theorem fields_append (h : separator ∉ front) :
    fields separator (front ++ separator :: back) = front :: fields separator back := by
  induction front with
  | nil => simp [fields]
  | cons x front ih =>
    have hne : x ≠ separator := fun he => h (he ▸ List.mem_cons_self)
    rw [List.cons_append, fields_cons_of_ne hne, ih fun hmem => h (List.mem_cons_of_mem _ hmem),
      prepend]

theorem fields_intercalate {lines : List (List α)}
    (hne : lines ≠ []) (h : ∀ line ∈ lines, separator ∉ line) :
    fields separator ([separator].intercalate lines) = lines := by
  induction lines with
  | nil => exact absurd rfl hne
  | cons line lines ih =>
    rw [List.forall_mem_cons] at h
    cases lines with
    | nil => simp [fields_eq_singleton h.1]
    | cons next lines =>
      rw [List.intercalate_cons_cons, List.append_assoc, List.singleton_append, fields_append h.1,
        ih (List.cons_ne_nil _ _) h.2]

end Fields

theorem fields_unlines {lines : List String} (h : ∀ line ∈ lines, '\n' ∉ line.toList) :
    fields '\n' (unlines lines).toList = lines.map String.toList ++ [[]] := by
  induction lines with
  | nil => rfl
  | cons line lines ih =>
    have hcons : (unlines (line :: lines)).toList =
        line.toList ++ '\n' :: (unlines lines).toList := by
      simp [unlines, String.toList_join]
    rw [hcons, fields_append (h line List.mem_cons_self),
      ih fun other hmem => h other (List.mem_cons_of_mem _ hmem)]
    rfl

theorem pieces_unlines {lines : List String} (h : ∀ line ∈ lines, '\n' ∉ line.toList) :
    pieces '\n' (unlines lines).toList = lines.map String.toList := by
  simp [pieces, fields_unlines h]

end CanonicalLR.Text
