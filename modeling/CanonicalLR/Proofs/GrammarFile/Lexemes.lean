import CanonicalLR.GrammarFile.Word
import CanonicalLR.Proofs.Text
import Mathlib.Data.List.TakeWhile
import Mathlib.Tactic.Common

/-! The words of grammar files as patterns. Where no comment starts, the word that is cut off is the
longest prefix of the line that fits a pattern, and no other pattern fits a prefix of that length. -/

namespace CanonicalLR.GrammarFile

inductive Lexeme : WordKind → List Char → Prop where
  | arrow : Lexeme .arrow ['-', '>']
  | label {c : Char} {cs : List Char} : c.isLower = true → (∀ x ∈ cs, isNameChar x = true) →
      Lexeme .label (c :: (cs ++ [':']))
  | atom {c : Char} {cs : List Char} : c.isLower = true → (∀ x ∈ cs, isNameChar x = true) →
      Lexeme .atom (c :: cs)
  | var {c : Char} {cs : List Char} : c.isUpper = true → (∀ x ∈ cs, isNameChar x = true) →
      Lexeme .var (c :: cs)
  | directive {c : Char} {cs : List Char} : c.isLower = true → (∀ x ∈ cs, x.isLower = true) →
      Lexeme .directive ('%' :: c :: cs)
  | number {c : Char} {cs : List Char} : c.isDigit = true → (∀ x ∈ cs, x.isDigit = true) →
      Lexeme .number (c :: cs)
  | sym {c : Char} : c ∈ symChars → Lexeme .sym [c]

def Word.Formed (w : Word) : Prop := Lexeme w.kind w.chars

variable {c : Char} {cs rest word : List Char} {kind kind' : WordKind} {size : Nat}

theorem take_takeWhile (p : Char → Bool) (rest : List Char) :
    rest.take (rest.takeWhile p).length = rest.takeWhile p :=
  (List.prefix_iff_eq_take.mp (List.takeWhile_prefix p)).symm

theorem length_le_takeWhile {p : Char → Bool} (hfront : cs <+: rest)
    (hcs : ∀ x ∈ cs, p x = true) : cs.length ≤ (rest.takeWhile p).length := by
  obtain ⟨more, rfl⟩ := hfront
  rw [List.takeWhile_append_of_pos hcs, List.length_append]
  omega

theorem lexeme_of_wordAt (h : wordAt c rest = some (kind, size)) :
    Lexeme kind ((c :: rest).take size) := by
  have hname : ∀ x ∈ rest.takeWhile isNameChar, isNameChar x = true :=
    fun x hx => List.mem_takeWhile_imp hx
  simp only [wordAt] at h
  split_ifs at h with hlower hlabel hupper hdigit hdirective harrow hsym
  · cases h
    rw [List.take_succ_cons, List.take_add_one, hlabel, take_takeWhile]
    exact .label hlower hname
  · cases h
    rw [List.take_succ_cons, take_takeWhile]
    exact .atom hlower hname
  · cases h
    rw [List.take_succ_cons, take_takeWhile]
    exact .var hupper hname
  · cases h
    rw [List.take_succ_cons, take_takeWhile]
    exact .number hdigit fun x hx => List.mem_takeWhile_imp hx
  · cases h
    rw [Bool.and_eq_true, decide_eq_true_eq] at hdirective
    obtain ⟨rfl, hhead⟩ := hdirective
    cases rest with
    | nil => cases hhead
    | cons c' rest =>
      have hlower' : c'.isLower = true := hhead
      rw [List.take_succ_cons, take_takeWhile, List.takeWhile_cons_of_pos hlower']
      exact .directive hlower' fun x hx => List.mem_takeWhile_imp hx
  · cases h
    rw [Bool.and_eq_true, decide_eq_true_eq, decide_eq_true_eq] at harrow
    obtain ⟨rfl, hhead⟩ := harrow
    cases rest with
    | nil => cases hhead
    | cons c' rest =>
      obtain rfl := Option.some.inj hhead
      exact .arrow
  · cases h
    exact .sym (List.contains_iff_mem.mp hsym)

theorem size_le_of_wordAt (h : wordAt c rest = some (kind, size)) : size ≤ rest.length + 1 := by
  have hle : ∀ p : Char → Bool, (rest.takeWhile p).length ≤ rest.length :=
    fun p => (List.takeWhile_prefix p).length_le
  simp only [wordAt] at h
  split_ifs at h with hlower hlabel hupper hdigit hdirective harrow hsym
  · cases h
    have hlt := (List.getElem?_eq_some_iff.mp hlabel).1
    omega
  · cases h
    exact Nat.succ_le_succ (hle _)
  · cases h
    exact Nat.succ_le_succ (hle _)
  · cases h
    exact Nat.succ_le_succ (hle _)
  · cases h
    exact Nat.succ_le_succ (hle _)
  · cases h
    cases rest with
    | nil => simp at harrow
    | cons c' rest => simp
  · cases h
    omega

/-! No shorter word is cut off than a pattern allows. -/

theorem not_isLower_of_isUpper (h : c.isUpper = true) : c.isLower = false := by
  by_contra hlower
  have hlow := Text.toNat_of_isLower (Bool.not_eq_false _ ▸ hlower)
  have hup := Text.toNat_of_isUpper h
  omega

theorem not_isAlpha_of_isDigit (h : c.isDigit = true) : c.isLower = false ∧ c.isUpper = false := by
  have hdigit := Text.toNat_of_isDigit h
  constructor
  · by_contra hlower
    have hlow := Text.toNat_of_isLower (Bool.not_eq_false _ ▸ hlower)
    omega
  · by_contra hupper
    have hup := Text.toNat_of_isUpper (Bool.not_eq_false _ ▸ hupper)
    omega

theorem symChars_other (h : c ∈ symChars) :
    c.isLower = false ∧ c.isUpper = false ∧ c.isDigit = false := by
  have hall : symChars.all (fun c => !c.isLower && !c.isUpper && !c.isDigit) = true := rfl
  simpa [and_assoc] using List.all_eq_true.mp hall c h

/-- Whatever pattern a prefix fits, the word that is cut off is longer or is that prefix. -/
theorem Lexeme.longest (h : Lexeme kind' word) (hfront : word <+: c :: rest) :
    ∃ kind size, wordAt c rest = some (kind, size) ∧
      (word.length < size ∨ word.length = size ∧ kind' = kind) := by
  cases h with
  | arrow =>
    obtain ⟨rfl, more, rfl⟩ := List.cons_prefix_cons.mp hfront
    exact ⟨.arrow, 2, rfl, Or.inr ⟨rfl, rfl⟩⟩
  | @label c' cs hlower hcs =>
    obtain ⟨rfl, more, rfl⟩ := List.cons_prefix_cons.mp hfront
    have htake : (cs ++ [':'] ++ more).takeWhile isNameChar = cs := by
      rw [List.append_assoc, List.takeWhile_append_of_pos hcs, List.singleton_append,
        List.takeWhile_cons_of_neg (by decide), List.append_nil]
    have hcolon : (cs ++ [':'] ++ more)[cs.length]? = some ':' := by simp
    refine ⟨.label, cs.length + 2, ?_, Or.inr ⟨by simp, rfl⟩⟩
    simp only [wordAt, hlower, htake, hcolon, if_true]
  | @atom c' cs hlower hcs =>
    obtain ⟨rfl, hrest⟩ := List.cons_prefix_cons.mp hfront
    have hle := length_le_takeWhile hrest hcs
    simp only [wordAt, hlower, if_true, List.length_cons]
    split_ifs with hlabel
    · exact ⟨_, _, rfl, Or.inl (by omega)⟩
    · refine ⟨_, _, rfl, ?_⟩
      simp only [and_true]
      omega
  | @var c' cs hupper hcs =>
    obtain ⟨rfl, hrest⟩ := List.cons_prefix_cons.mp hfront
    have hle := length_le_takeWhile hrest hcs
    refine ⟨.var, (rest.takeWhile isNameChar).length + 1, ?_, ?_⟩
    · simp only [wordAt, not_isLower_of_isUpper hupper, hupper, if_true, Bool.false_eq_true,
        if_false]
    · simp only [and_true, List.length_cons]
      omega
  | @directive c' cs hlower hcs =>
    obtain ⟨rfl, hrest⟩ := List.cons_prefix_cons.mp hfront
    have hle := length_le_takeWhile hrest (List.forall_mem_cons.mpr ⟨hlower, hcs⟩)
    obtain ⟨more, rfl⟩ := hrest
    refine ⟨.directive, ((c' :: cs ++ more).takeWhile Char.isLower).length + 1, ?_, ?_⟩
    · have hpercent : Char.isLower '%' = false ∧ Char.isUpper '%' = false ∧
          Char.isDigit '%' = false := by decide
      obtain ⟨hl, hu, hd⟩ := hpercent
      simp only [wordAt, hl, hu, hd, List.cons_append, List.head?_cons, Option.map_some, hlower,
        Option.getD_some, decide_true, Bool.and_self, Bool.false_eq_true, if_false, if_true]
    · simp only [and_true, List.length_cons] at hle ⊢
      omega
  | @number c' cs hdigit hcs =>
    obtain ⟨rfl, hrest⟩ := List.cons_prefix_cons.mp hfront
    have hle := length_le_takeWhile hrest hcs
    obtain ⟨hlower, hupper⟩ := not_isAlpha_of_isDigit hdigit
    refine ⟨.number, (rest.takeWhile Char.isDigit).length + 1, ?_, ?_⟩
    · simp only [wordAt, hlower, hupper, hdigit, if_true, Bool.false_eq_true, if_false]
    · simp only [and_true, List.length_cons]
      omega
  | @sym c' hsym =>
    -- a percent sign may start a directive, and a dash an arrow
    obtain ⟨rfl, -⟩ := List.cons_prefix_cons.mp hfront
    obtain ⟨hlower, hupper, hdigit⟩ := symChars_other hsym
    simp only [wordAt, hlower, hupper, hdigit, List.length_singleton, Bool.false_eq_true,
      if_false, List.contains_iff_mem.mpr hsym, if_true]
    split_ifs with hdirective harrow
    · rw [Bool.and_eq_true] at hdirective
      cases rest with
      | nil => cases hdirective.2
      | cons c'' rest =>
        have hlower' : c''.isLower = true := hdirective.2
        refine ⟨_, _, rfl, Or.inl ?_⟩
        rw [List.takeWhile_cons_of_pos hlower', List.length_cons]
        omega
    · exact ⟨_, _, rfl, Or.inl (by omega)⟩
    · exact ⟨_, _, rfl, Or.inr ⟨rfl, rfl⟩⟩

/-! What words are made of. -/

theorem isNameChar_eq (c : Char) :
    isNameChar c = (c.isUpper || c.isLower || c.isDigit || c == '_') := by
  rfl

theorem isNameChar_of_isLower (h : c.isLower = true) : isNameChar c = true := by
  rw [isNameChar_eq, h, Bool.or_true, Bool.true_or, Bool.true_or]

theorem isNameChar_of_isUpper (h : c.isUpper = true) : isNameChar c = true := by
  rw [isNameChar_eq, h, Bool.true_or, Bool.true_or, Bool.true_or]

theorem isNameChar_of_isDigit (h : c.isDigit = true) : isNameChar c = true := by
  rw [isNameChar_eq, h, Bool.or_true, Bool.true_or]

theorem Lexeme.made_of (h : Lexeme kind word) :
    ∀ x ∈ word, isNameChar x = true ∨ x ∈ symChars := by
  cases h with
  | arrow =>
    exact List.forall_mem_cons.mpr
      ⟨Or.inr (by decide), List.forall_mem_singleton.mpr (Or.inr (by decide))⟩
  | label hlower hcs =>
    refine List.forall_mem_cons.mpr ⟨Or.inl (isNameChar_of_isLower hlower), fun x hx => ?_⟩
    rcases List.mem_append.mp hx with hx | hx
    · exact Or.inl (hcs x hx)
    · obtain rfl := List.mem_singleton.mp hx
      exact Or.inr (by decide)
  | atom hlower hcs =>
    exact List.forall_mem_cons.mpr
      ⟨Or.inl (isNameChar_of_isLower hlower), fun x hx => Or.inl (hcs x hx)⟩
  | var hupper hcs =>
    exact List.forall_mem_cons.mpr
      ⟨Or.inl (isNameChar_of_isUpper hupper), fun x hx => Or.inl (hcs x hx)⟩
  | directive hlower hcs =>
    refine List.forall_mem_cons.mpr ⟨Or.inr (by decide), List.forall_mem_cons.mpr
      ⟨Or.inl (isNameChar_of_isLower hlower), fun x hx => Or.inl ?_⟩⟩
    exact isNameChar_of_isLower (hcs x hx)
  | number hdigit hcs =>
    exact List.forall_mem_cons.mpr ⟨Or.inl (isNameChar_of_isDigit hdigit),
      fun x hx => Or.inl (isNameChar_of_isDigit (hcs x hx))⟩
  | sym hc =>
    intro x hx
    obtain rfl := List.mem_singleton.mp hx
    exact Or.inr hc

theorem Lexeme.not_gap (h : Lexeme kind word) (hc : c ∈ word) : isGap c = false ∧ c ≠ '\n' := by
  suffices ¬ (isGap c = true ∨ c = '\n') by simpa using this
  intro hgap
  have hother : isNameChar c = false ∧ c ∉ symChars := by
    simp only [isGap, Bool.or_eq_true, beq_iff_eq] at hgap
    rcases hgap with (((rfl | rfl) | rfl) | rfl) | rfl <;> decide
  rcases h.made_of c hc with hname | hsym
  · exact Bool.noConfusion (hname.symm.trans hother.1)
  · exact hother.2 hsym

theorem Lexeme.ne_nil (h : Lexeme kind word) : word ≠ [] := by
  cases h <;> exact List.cons_ne_nil _ _

theorem Lexeme.not_comment (h : Lexeme kind word) : word.take 2 ≠ ['-', '-'] := by
  intro heq
  cases h with
  | arrow => simp at heq
  | label hlower hcs | atom hlower hcs =>
    obtain rfl : _ = '-' := (List.cons.inj heq).1
    cases hlower
  | var hupper hcs =>
    obtain rfl : _ = '-' := (List.cons.inj heq).1
    cases hupper
  | directive hlower hcs => cases heq
  | number hdigit hcs =>
    obtain rfl : _ = '-' := (List.cons.inj heq).1
    cases hdigit
  | sym hc => cases heq

/-! Lines of words. A word that stands before a gap or at the end of its line is read whole. -/

theorem wordAt_of_lexeme (h : Lexeme kind word) {tail : List Char}
    (htail : tail.head?.all isGap = true) (heq : word ++ tail = c :: rest) :
    wordAt c rest = some (kind, word.length) := by
  obtain ⟨kind', size, hat, hlonger | ⟨rfl, rfl⟩⟩ := h.longest ⟨tail, heq⟩
  -- a longer word would not fit into the line, or hold the gap
  · cases tail with
    | nil =>
      have hle := size_le_of_wordAt hat
      have hlength := congrArg List.length heq
      simp only [List.append_nil, List.length_cons] at hlength
      omega
    | cons gap tail =>
      have hmem : gap ∈ (c :: rest).take size := by
        rw [← heq, List.take_append, List.take_cons (by omega)]
        simp
      have hgap : isGap gap = true := htail
      cases hgap.symm.trans ((lexeme_of_wordAt hat).not_gap hmem).1
  · exact hat

variable {w : Word} {ws : List Word} {line fuel : Nat} {afterWord : Bool} {tail : List Char}

theorem Word.Formed.head (h : w.Formed) (htail : tail.head?.all isGap = true)
    (heq : w.chars ++ tail = c :: rest) :
    isGap c = false ∧ ¬ (c = '-' && rest.head? = some '-') = true := by
  cases hchars : w.chars with
  | nil => exact absurd hchars h.ne_nil
  | cons c' cs =>
    rw [hchars] at heq
    obtain ⟨rfl, rfl⟩ := List.cons.inj heq
    refine ⟨(h.not_gap (hchars ▸ List.mem_cons_self)).1, fun hdash => ?_⟩
    rw [Bool.and_eq_true, decide_eq_true_eq, decide_eq_true_eq] at hdash
    obtain ⟨rfl, hhead⟩ := hdash
    cases cs with
    | nil =>
      have hhead : tail.head? = some '-' := hhead
      rw [hhead] at htail
      cases htail
    | cons d cs =>
      obtain rfl := Option.some.inj hhead
      exact h.not_comment (by rw [hchars]; rfl)

theorem wordsFrom_word (h : w.Formed) (htail : tail.head?.all isGap = true) :
    wordsFrom line (fuel + 1) afterWord (w.chars ++ tail) =
      (wordsFrom line fuel true tail).map (w :: ·) := by
  obtain ⟨c, rest, heq⟩ :=
    List.exists_cons_of_ne_nil (List.append_ne_nil_of_left_ne_nil h.ne_nil tail)
  obtain ⟨hgap, hdash⟩ := h.head htail heq
  rw [heq, wordsFrom, if_neg (by simp [hgap]), if_neg hdash, wordAt_of_lexeme h htail heq]
  simp only [← heq, List.drop_left, List.take_left]

/-- Words with single spaces between them. -/
def spaced (ws : List Word) : List Char := [' '].intercalate (ws.map Word.chars)

theorem spaced_cons_cons {w' : Word} :
    spaced (w :: w' :: ws) = w.chars ++ ' ' :: spaced (w' :: ws) := by
  simp [spaced, List.intercalate_cons_cons]

theorem wordsFrom_spaced (hws : ∀ w ∈ ws, w.Formed) (hne : ws ≠ [])
    (htail : tail.head?.all isGap = true)
    (hend : ∀ fuel, wordsFrom line fuel true tail = .ok []) (hfuel : (spaced ws).length ≤ fuel) :
    wordsFrom line fuel afterWord (spaced ws ++ tail) = .ok ws := by
  induction ws generalizing fuel afterWord with
  | nil => exact absurd rfl hne
  | cons w ws ih =>
    rw [List.forall_mem_cons] at hws
    have hlength := List.length_pos_iff.mpr hws.1.ne_nil
    cases ws with
    | nil =>
      have hspaced : spaced [w] = w.chars := by simp [spaced]
      rw [hspaced] at hfuel ⊢
      obtain ⟨fuel, rfl⟩ : ∃ n, fuel = n + 1 := ⟨fuel - 1, by omega⟩
      rw [wordsFrom_word hws.1 htail, hend]
      rfl
    | cons w' ws =>
      rw [spaced_cons_cons, List.length_append, List.length_cons] at hfuel
      obtain ⟨fuel, rfl⟩ : ∃ n, fuel = n + 2 := ⟨fuel - 2, by omega⟩
      have hgap : isGap ' ' = true := by decide
      have hstop : (' ' :: (spaced (w' :: ws) ++ tail)).head?.all isGap = true := hgap
      rw [spaced_cons_cons, List.append_assoc, List.cons_append, wordsFrom_word hws.1 hstop,
        wordsFrom, if_pos hgap, ih hws.2 (List.cons_ne_nil _ _) (by omega)]
      rfl

end CanonicalLR.GrammarFile
