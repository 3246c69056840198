import CanonicalLR.Proofs.Decimal.Nearest
import CanonicalLR.Proofs.Scanner.Longest

/-! The lexical grammar. What each kind of lexeme looks like in a mode is said here without the
automaton, and the automaton is shown to accept just these lexemes. -/

namespace CanonicalLR.Scanner

open Decimal (AllDigits Fractional Power)
open Text (natOfDigits)

variable {mode : Mode} {phase : Phase} {lexeme : Lexeme} {c : Char} {cs ds : List Char} {v : ℚ}
  {e : Int}

def blankChars : List Char := [' ', '\t', '\n', '\r']

/-- What a name may begin with; in a reference signs and dots are letters. -/
def nameStart (mode : Mode) (c : Char) : Bool :=
  c.isAlpha || c = '_' || mode.inReference && (c = '+' || c = '-' || c = '.')

/-- What may follow in a name. -/
def nameRest (mode : Mode) (c : Char) : Bool :=
  c.isAlpha || c = '_' || c.isDigit || c = '.' || mode.inReference && (c = '+' || c = '-')

/-- The lexemes of a mode. -/
inductive Lexical (mode : Mode) : Lexeme → List Char → Prop where
  | ident {c : Char} {cs : List Char} : nameStart mode c = true →
      (∀ d ∈ cs, nameRest mode d = true) → Lexical mode .ident (c :: cs)
  | int {ds : List Char} : AllDigits ds → Lexical mode .int ds
  | float {cs : List Char} {v : ℚ} : mode.inReference = false → Fractional cs v →
      Lexical mode .float cs
  | string {body : List Char} : '"' ∉ body → Lexical mode .string ('"' :: (body ++ ['"']))
  | blank {cs : List Char} : cs ≠ [] → (∀ c ∈ cs, c ∈ blankChars) → Lexical mode .blank cs
  | symbol {c : Char} : c ∈ symbolChars → Lexical mode .punct [c]
  | mark {c : Char} : mode.inReference = false → c = '+' ∨ c = '-' ∨ c = '.' →
      Lexical mode .punct [c]

/-! Classes of characters. -/

/-- What is known of a character from its class. -/
def Classified (mode : Mode) (c : Char) : CharClass → Prop
  | .quote => c = '"'
  | .sign => mode.inReference = false ∧ (c = '+' ∨ c = '-')
  | .symbol => c ∈ symbolChars
  | .exponent => mode.inReference = false ∧ (c = 'e' ∨ c = 'E')
  | .alpha => nameStart mode c = true
  | .digit => c.isDigit = true
  | .dot => mode.inReference = false ∧ c = '.'
  | .whitespace => c ∈ blankChars
  | .error => True

theorem classified_normal (c : Char) : Classified .normal c (CharClass.of c) := by
  rw [CharClass.of]
  split_ifs with hquote hsign hmark hletter hdigit hdot hblank hsymbol
  · exact hquote
  · exact ⟨rfl, by simpa using hsign⟩
  · exact ⟨rfl, by simpa using hmark⟩
  · exact Bool.or_eq_true_iff.mpr (Or.inl hletter)
  · exact hdigit
  · exact ⟨rfl, hdot⟩
  · show c ∈ blankChars
    simpa only [blankChars, List.mem_cons, List.not_mem_nil, or_false, or_assoc, Bool.or_eq_true,
      decide_eq_true_eq] using hblank
  · exact List.contains_iff_mem.mp hsymbol
  · trivial

theorem nameStart_of_normal (h : nameStart .normal c = true) : nameStart mode c = true := by
  have hnormal : Mode.inReference .normal = false := rfl
  rw [nameStart, hnormal, Bool.false_and, Bool.or_false] at h
  rw [nameStart, h, Bool.true_or]

theorem classified (mode : Mode) (c : Char) : Classified mode c (mode.classify c) := by
  have hplain := classified_normal c
  rw [Mode.classify]
  generalize CharClass.of c = kind at hplain ⊢
  cases kind with
  | quote | symbol | digit | whitespace | error => exact hplain
  | alpha => exact nameStart_of_normal hplain
  | sign =>
    obtain ⟨-, hc⟩ := hplain
    dsimp only
    split_ifs with hmode
    · rcases hc with rfl | rfl <;> simp [Classified, nameStart, hmode]
    · exact ⟨Bool.eq_false_iff.mpr hmode, hc⟩
  | exponent =>
    obtain ⟨-, hc⟩ := hplain
    dsimp only
    split_ifs with hmode
    · rcases hc with rfl | rfl <;> rfl
    · exact ⟨Bool.eq_false_iff.mpr hmode, hc⟩
  | dot =>
    obtain ⟨-, rfl⟩ := hplain
    dsimp only
    split_ifs with hmode
    · simp [Classified, nameStart, hmode]
    · exact ⟨Bool.eq_false_iff.mpr hmode, rfl⟩

theorem classify_of_isDigit (h : c.isDigit = true) : mode.classify c = .digit := by
  have hall : ∀ n < 58, 48 ≤ n → CharClass.of (Char.ofNat n) = .digit := by decide +kernel
  obtain ⟨hlow, hhigh⟩ := Text.toNat_of_isDigit h
  have hdigit := hall _ (Nat.lt_succ_of_le hhigh) hlow
  rw [Char.ofNat_toNat] at hdigit
  rw [Mode.classify, hdigit]

theorem classify_of_mem_blankChars (h : c ∈ blankChars) : mode.classify c = .whitespace := by
  have hall : blankChars.map CharClass.of = List.replicate 4 .whitespace := rfl
  have hclass := List.eq_of_mem_replicate (hall ▸ List.mem_map_of_mem h)
  rw [Mode.classify, hclass]

theorem classify_of_mem_symbolChars (h : c ∈ symbolChars) : mode.classify c = .symbol := by
  have hall : symbolChars.map CharClass.of = List.replicate 23 .symbol := rfl
  have hclass := List.eq_of_mem_replicate (hall ▸ List.mem_map_of_mem h)
  rw [Mode.classify, hclass]

theorem classify_outside (hmode : mode.inReference = false) (c : Char) :
    mode.classify c = CharClass.of c := by
  rw [Mode.classify]
  simp only [hmode, Bool.false_eq_true, if_false]
  split <;> rfl

theorem classify_inside (hmode : mode.inReference = true) :
    mode.classify '+' = .alpha ∧ mode.classify '-' = .alpha ∧ mode.classify '.' = .alpha := by
  cases mode <;> first | exact ⟨rfl, rfl, rfl⟩ | cases hmode

theorem of_letter (h : c.isAlpha = true ∨ c = '_') :
    CharClass.of c = .exponent ∨ CharClass.of c = .alpha := by
  unfold CharClass.of
  split_ifs with hquote hsign
  · rw [hquote] at h
    exact absurd h (by decide)
  · rcases (by simpa using hsign : c = '+' ∨ c = '-') with rfl | rfl <;> exact absurd h (by decide)
  · exact Or.inl rfl
  · exact Or.inr rfl
  all_goals simp_all

theorem classify_letter (h : c.isAlpha = true ∨ c = '_') :
    mode.classify c = .exponent ∨ mode.classify c = .alpha := by
  rw [Mode.classify]
  rcases of_letter h with hclass | hclass
  · rw [hclass]
    split_ifs
    · exact Or.inr rfl
    · exact Or.inl rfl
  · rw [hclass]
    exact Or.inr rfl

theorem classify_of_nameStart (h : nameStart mode c = true) :
    mode.classify c = .exponent ∨ mode.classify c = .alpha := by
  simp only [nameStart, Bool.or_eq_true, Bool.and_eq_true, decide_eq_true_eq] at h
  rcases h with h | ⟨hmode, (rfl | rfl) | rfl⟩
  · exact classify_letter h
  · exact Or.inr (classify_inside hmode).1
  · exact Or.inr (classify_inside hmode).2.1
  · exact Or.inr (classify_inside hmode).2.2

/-! The automaton, phase by phase. -/

theorem Phase.follow_loop (h : ∀ c ∈ cs, phase.next (mode.classify c) = some phase) :
    phase.follow mode cs = some phase := by
  induction cs with
  | nil => rfl
  | cons c cs ih =>
    obtain ⟨hc, hcs⟩ := List.forall_mem_cons.mp h
    rw [Phase.follow, hc, Option.bind_some, ih hcs]

/-- A phase stays as long as it can; then the text is at its end, or another phase follows. -/
theorem Phase.reads_cases (h : phase.reads mode cs = some lexeme) : ∃ front rest,
    cs = front ++ rest ∧ (∀ c ∈ front, phase.next (mode.classify c) = some phase) ∧
      ((rest = [] ∧ phase.accepts = some lexeme) ∨ ∃ c tail next, rest = c :: tail ∧
        phase.next (mode.classify c) = some next ∧ next ≠ phase ∧
        next.reads mode tail = some lexeme) := by
  induction cs with
  | nil => exact ⟨[], [], rfl, nofun, Or.inl ⟨rfl, h⟩⟩
  | cons c cs ih =>
    rw [Phase.reads_cons] at h
    obtain ⟨next, hnext, hreads⟩ := Option.bind_eq_some_iff.mp h
    by_cases hne : next = phase
    · subst hne
      obtain ⟨front, rest, rfl, hfront, hrest⟩ := ih hreads
      exact ⟨c :: front, rest, rfl, List.forall_mem_cons.mpr ⟨hnext, hfront⟩, hrest⟩
    · exact ⟨[], c :: cs, rfl, nofun, Or.inr ⟨c, cs, next, rfl, hnext, hne, hreads⟩⟩

theorem Phase.reads_last (hlast : ∀ kind, phase.next kind = none)
    (h : phase.reads mode cs = some lexeme) : cs = [] ∧ phase.accepts = some lexeme := by
  cases cs with
  | nil => exact ⟨rfl, h⟩
  | cons c cs =>
    rw [Phase.reads_cons, hlast] at h
    cases h

theorem nameRest_of_next (h : Phase.ident.next (mode.classify c) = some .ident) :
    nameRest mode c = true := by
  have hclass := classified mode c
  generalize mode.classify c = kind at h hclass
  cases kind <;> try cases h
  · rcases hclass with ⟨-, rfl | rfl⟩ <;> rfl
  · simp only [Classified, nameStart, Bool.or_eq_true, Bool.and_eq_true, decide_eq_true_eq] at hclass
    simp only [nameRest, Bool.or_eq_true, Bool.and_eq_true, decide_eq_true_eq]
    tauto
  · simp [nameRest, show c.isDigit = true from hclass]
  · rw [hclass.2]
    rfl

theorem next_of_nameRest (h : nameRest mode c = true) :
    Phase.ident.next (mode.classify c) = some .ident := by
  have hletter : mode.classify c = .exponent ∨ mode.classify c = .alpha →
      Phase.ident.next (mode.classify c) = some .ident := by
    rintro (hclass | hclass) <;> rw [hclass] <;> rfl
  simp only [nameRest, Bool.or_eq_true, Bool.and_eq_true, decide_eq_true_eq] at h
  rcases h with (((h | h) | h) | rfl) | ⟨hmode, rfl | rfl⟩
  · exact hletter (classify_letter (Or.inl h))
  · exact hletter (classify_letter (Or.inr h))
  · rw [classify_of_isDigit h]
    rfl
  · cases mode <;> rfl
  · exact hletter (Or.inr (classify_inside hmode).1)
  · exact hletter (Or.inr (classify_inside hmode).2.1)

theorem reads_ident (h : Phase.ident.reads mode cs = some lexeme) :
    lexeme = .ident ∧ ∀ c ∈ cs, nameRest mode c = true := by
  obtain ⟨front, rest, rfl, hfront, ⟨rfl, haccepts⟩ | ⟨c, tail, next, -, hnext, hne, -⟩⟩ :=
    Phase.reads_cases h
  · rw [List.append_nil]
    exact ⟨(Option.some.inj haccepts).symm, fun c hc => nameRest_of_next (hfront c hc)⟩
  · generalize mode.classify c = kind at hnext
    cases kind <;> cases hnext <;> exact absurd rfl hne

theorem reads_blank (h : Phase.blank.reads mode cs = some lexeme) :
    lexeme = .blank ∧ ∀ c ∈ cs, c ∈ blankChars := by
  obtain ⟨front, rest, rfl, hfront, ⟨rfl, haccepts⟩ | ⟨c, tail, next, -, hnext, hne, -⟩⟩ :=
    Phase.reads_cases h
  · rw [List.append_nil]
    refine ⟨(Option.some.inj haccepts).symm, fun c hc => ?_⟩
    have hloop := hfront c hc
    have hclass := classified mode c
    generalize mode.classify c = kind at hloop hclass
    cases kind <;> first | exact hclass | cases hloop
  · generalize mode.classify c = kind at hnext
    cases kind <;> cases hnext
    exact absurd rfl hne

theorem next_inString (h : c ≠ '"') :
    Phase.inString.next (mode.classify c) = some .inString := by
  have hclass := classified mode c
  cases hkind : mode.classify c <;> try rfl
  rw [hkind] at hclass
  exact absurd hclass h

theorem reads_inString (h : Phase.inString.reads mode cs = some lexeme) :
    lexeme = .string ∧ ∃ body, '"' ∉ body ∧ cs = body ++ ['"'] := by
  obtain ⟨front, rest, rfl, hfront, ⟨-, haccepts⟩ | ⟨c, tail, next, rfl, hnext, hne, hreads⟩⟩ :=
    Phase.reads_cases h
  · cases haccepts
  · have hclass := classified mode c
    generalize mode.classify c = kind at hnext hclass
    cases kind <;> cases hnext
    all_goals try exact absurd rfl hne
    obtain ⟨rfl, haccepts⟩ := Phase.reads_last (fun _ => rfl) hreads
    refine ⟨(Option.some.inj haccepts).symm, front, fun hmem => ?_, by rw [show c = '"' from hclass]⟩
    have hloop := hfront _ hmem
    cases mode <;> cases hloop

/-! Numbers. -/

theorem isDigit_of_next (hphase : phase = .int ∨ phase = .fraction ∨ phase = .exponentDigits)
    (h : phase.next (mode.classify c) = some phase) : c.isDigit = true := by
  have hclass := classified mode c
  generalize mode.classify c = kind at h hclass
  rcases hphase with rfl | rfl | rfl <;> cases kind <;> first | exact hclass | cases h

theorem reads_exponentDigits (h : Phase.exponentDigits.reads mode cs = some lexeme) :
    lexeme = .float ∧ ∀ c ∈ cs, c.isDigit = true := by
  obtain ⟨front, rest, rfl, hfront, ⟨rfl, haccepts⟩ | ⟨c, tail, next, -, hnext, hne, -⟩⟩ :=
    Phase.reads_cases h
  · rw [List.append_nil]
    exact ⟨(Option.some.inj haccepts).symm,
      fun c hc => isDigit_of_next (Or.inr (Or.inr rfl)) (hfront c hc)⟩
  · generalize mode.classify c = kind at hnext
    cases kind <;> cases hnext
    exact absurd rfl hne

theorem reads_exponentSign (h : Phase.exponentSign.reads mode cs = some lexeme) :
    lexeme = .float ∧ AllDigits cs := by
  cases cs with
  | nil => cases h
  | cons c cs =>
    rw [Phase.reads_cons] at h
    have hclass := classified mode c
    generalize mode.classify c = kind at h hclass
    cases kind <;> try cases h
    obtain ⟨rfl, hcs⟩ := reads_exponentDigits h
    exact ⟨rfl, nofun, List.forall_mem_cons.mpr ⟨hclass, hcs⟩⟩

theorem reads_exponentMark {mark : Char} (hmark : mark = 'e' ∨ mark = 'E')
    (h : Phase.exponentMark.reads mode cs = some lexeme) :
    lexeme = .float ∧ ∃ e, Power (mark :: cs) e := by
  cases cs with
  | nil => cases h
  | cons c cs =>
    rw [Phase.reads_cons] at h
    have hclass := classified mode c
    generalize mode.classify c = kind at h hclass
    cases kind <;> try cases h
    · obtain ⟨rfl, hcs⟩ := reads_exponentSign h
      rcases hclass.2 with rfl | rfl
      · exact ⟨rfl, _, .plus hmark hcs⟩
      · exact ⟨rfl, _, .minus hmark hcs⟩
    · obtain ⟨rfl, hcs⟩ := reads_exponentDigits h
      exact ⟨rfl, _, .plain hmark ⟨nofun, List.forall_mem_cons.mpr ⟨hclass, hcs⟩⟩⟩

theorem reads_fraction (h : Phase.fraction.reads mode cs = some lexeme) :
    lexeme = .float ∧ ∃ ds power e, cs = ds ++ power ∧ (∀ c ∈ ds, c.isDigit = true) ∧
      Power power e := by
  obtain ⟨front, rest, rfl, hfront, hrest⟩ := Phase.reads_cases h
  have hdigits : ∀ c ∈ front, c.isDigit = true :=
    fun c hc => isDigit_of_next (Or.inr (Or.inl rfl)) (hfront c hc)
  rcases hrest with ⟨rfl, haccepts⟩ | ⟨c, tail, next, rfl, hnext, hne, hreads⟩
  · exact ⟨(Option.some.inj haccepts).symm, front, [], 0, rfl, hdigits, .none⟩
  · have hclass := classified mode c
    generalize mode.classify c = kind at hnext hclass
    cases kind <;> cases hnext <;> try exact absurd rfl hne
    obtain ⟨rfl, e, hpower⟩ := reads_exponentMark hclass.2 hreads
    exact ⟨rfl, front, c :: tail, e, rfl, hdigits, hpower⟩

theorem reads_int (hfirst : c.isDigit = true) (h : Phase.int.reads mode cs = some lexeme) :
    Lexical mode lexeme (c :: cs) := by
  obtain ⟨front, rest, rfl, hfront, hrest⟩ := Phase.reads_cases h
  have hdigits : AllDigits (c :: front) := ⟨nofun, List.forall_mem_cons.mpr
    ⟨hfirst, fun c hc => isDigit_of_next (Or.inl rfl) (hfront c hc)⟩⟩
  rcases hrest with ⟨rfl, haccepts⟩ | ⟨d, tail, next, rfl, hnext, hne, hreads⟩
  · cases haccepts
    rw [List.append_nil]
    exact .int hdigits
  · have hclass := classified mode d
    generalize mode.classify d = kind at hnext hclass
    cases kind <;> cases hnext <;> try exact absurd rfl hne
    · obtain ⟨rfl, e, hpower⟩ := reads_exponentMark hclass.2 hreads
      exact .float hclass.1 (.whole hdigits nofun hpower)
    · obtain ⟨rfl, fraction, power, e, rfl, hfraction, hpower⟩ := reads_fraction hreads
      rw [hclass.2]
      exact .float hclass.1 (.point hdigits hfraction hpower)

theorem reads_dot (hmode : mode.inReference = false) (h : Phase.dot.reads mode cs = some lexeme) :
    Lexical mode lexeme ('.' :: cs) := by
  cases cs with
  | nil =>
    cases h
    exact .mark hmode (Or.inr (Or.inr rfl))
  | cons c cs =>
    rw [Phase.reads_cons] at h
    have hclass := classified mode c
    generalize mode.classify c = kind at h hclass
    cases kind <;> try cases h
    obtain ⟨rfl, ds, power, e, rfl, hds, hpower⟩ := reads_fraction h
    have hfraction : AllDigits (c :: ds) := ⟨nofun, List.forall_mem_cons.mpr ⟨hclass, hds⟩⟩
    exact .float hmode (.bare hfraction hpower)

theorem lexical_of_lexeme? (h : lexeme? mode cs = some lexeme) : Lexical mode lexeme cs := by
  cases cs with
  | nil => cases h
  | cons c cs =>
    rw [lexeme?, Phase.reads_cons] at h
    obtain ⟨next, hnext, hreads⟩ := Option.bind_eq_some_iff.mp h
    have hclass := classified mode c
    generalize mode.classify c = kind at hnext hclass
    cases kind <;> cases hnext
    · obtain ⟨rfl, body, hbody, rfl⟩ := reads_inString hreads
      rw [show c = '"' from hclass]
      exact .string hbody
    · obtain ⟨rfl, haccepts⟩ := Phase.reads_last (fun _ => rfl) hreads
      cases haccepts
      exact .mark hclass.1 (hclass.2.imp_right Or.inl)
    · obtain ⟨rfl, haccepts⟩ := Phase.reads_last (fun _ => rfl) hreads
      cases haccepts
      exact .symbol hclass
    · obtain ⟨rfl, hcs⟩ := reads_ident hreads
      refine .ident ?_ hcs
      rcases hclass.2 with rfl | rfl <;> rfl
    · obtain ⟨rfl, hcs⟩ := reads_ident hreads
      exact .ident hclass hcs
    · exact reads_int hclass hreads
    · rw [hclass.2]
      exact reads_dot hclass.1 hreads
    · obtain ⟨rfl, hcs⟩ := reads_blank hreads
      exact .blank (List.cons_ne_nil c cs) (List.forall_mem_cons.mpr ⟨hclass, hcs⟩)

/-! What is a lexeme leads to a phase that accepts. -/

theorem Phase.follow_digits (hphase : phase.next .digit = some phase)
    (hds : ∀ c ∈ ds, c.isDigit = true) : phase.follow mode ds = some phase :=
  Phase.follow_loop fun c hc => by rw [classify_of_isDigit (hds c hc), hphase]

theorem Phase.follow_allDigits {next : Phase} (h : AllDigits ds)
    (hfirst : phase.next .digit = some next) (hnext : next.next .digit = some next) :
    phase.follow mode ds = some next := by
  obtain ⟨d, rest, rfl⟩ := List.exists_cons_of_ne_nil h.ne_nil
  obtain ⟨hd, hrest⟩ := List.forall_mem_cons.mp h.digit
  rw [Phase.follow, classify_of_isDigit hd, hfirst, Option.bind_some, follow_digits hnext hrest]

theorem reads_power (hmode : mode.inReference = false) (h : Power cs e) (hne : cs ≠ [])
    (hphase : phase.next .exponent = some .exponentMark) :
    phase.reads mode cs = some .float := by
  have hmark : ∀ {mark : Char}, mark = 'e' ∨ mark = 'E' → mode.classify mark = .exponent := by
    intro mark hmark
    rw [classify_outside hmode]
    rcases hmark with rfl | rfl <;> rfl
  cases h with
  | none => exact absurd rfl hne
  | plain hm hds =>
    rw [Phase.reads_cons, hmark hm, hphase, Option.bind_some, Phase.reads,
      Phase.follow_allDigits hds rfl rfl]
    rfl
  | plus hm hds | minus hm hds =>
    rw [Phase.reads_cons, hmark hm, hphase, Option.bind_some, Phase.reads_cons,
      classify_outside hmode]
    show Phase.reads mode .exponentSign _ = _
    rw [Phase.reads, Phase.follow_allDigits hds rfl rfl]
    rfl

theorem reads_fraction_of (hmode : mode.inReference = false) (hds : ∀ c ∈ ds, c.isDigit = true)
    (h : Power cs e) : Phase.fraction.reads mode (ds ++ cs) = some .float := by
  rw [Phase.reads, Phase.follow_append, Phase.follow_digits rfl hds, Option.bind_some, ← Phase.reads]
  by_cases hne : cs = []
  · rw [hne]
    rfl
  · exact reads_power hmode h hne rfl

theorem lexeme?_of_fractional (hmode : mode.inReference = false) (h : Fractional cs v) :
    lexeme? mode cs = some .float := by
  have hdot : mode.classify '.' = .dot := classify_outside hmode '.'
  cases h with
  | point hwhole hfraction hpower =>
    rw [lexeme?, Phase.reads, Phase.follow_append, Phase.follow_allDigits hwhole rfl rfl,
      Option.bind_some, ← Phase.reads, Phase.reads_cons, hdot]
    exact reads_fraction_of hmode hfraction hpower
  | bare hfraction hpower =>
    rw [lexeme?, Phase.reads_cons, hdot]
    show Phase.reads mode .dot _ = _
    rw [Phase.reads, Phase.follow_append, Phase.follow_allDigits hfraction rfl rfl,
      Option.bind_some, ← Phase.reads]
    exact reads_fraction_of hmode (List.forall_mem_nil _) hpower
  | whole hwhole hne hpower =>
    rw [lexeme?, Phase.reads, Phase.follow_append, Phase.follow_allDigits hwhole rfl rfl,
      Option.bind_some, ← Phase.reads]
    exact reads_power hmode hpower hne rfl

theorem lexeme?_of_lexical (h : Lexical mode lexeme cs) : lexeme? mode cs = some lexeme := by
  cases h with
  | @ident c cs hc hcs =>
    have hstart : Phase.start.next (mode.classify c) = some .ident := by
      rcases classify_of_nameStart hc with hclass | hclass <;> rw [hclass] <;> rfl
    rw [lexeme?, Phase.reads_cons, hstart, Option.bind_some, Phase.reads,
      Phase.follow_loop fun d hd => next_of_nameRest (hcs d hd)]
    rfl
  | int hds =>
    rw [lexeme?, Phase.reads, Phase.follow_allDigits hds rfl rfl]
    rfl
  | float hmode hcs => exact lexeme?_of_fractional hmode hcs
  | @string body hbody =>
    have hquote : mode.classify '"' = .quote := by cases mode <;> rfl
    have hloop : ∀ c ∈ body, Phase.inString.next (mode.classify c) = some .inString :=
      fun c hc => next_inString fun heq => hbody (heq ▸ hc)
    rw [lexeme?, Phase.reads_cons, hquote]
    show Phase.reads mode .inString _ = _
    rw [Phase.reads, Phase.follow_append, Phase.follow_loop hloop, Option.bind_some, Phase.follow,
      hquote]
    rfl
  | @blank cs hne hcs =>
    obtain ⟨c, cs, rfl⟩ := List.exists_cons_of_ne_nil hne
    obtain ⟨hc, hcs⟩ := List.forall_mem_cons.mp hcs
    rw [lexeme?, Phase.reads_cons, classify_of_mem_blankChars hc]
    show Phase.reads mode .blank _ = _
    rw [Phase.reads, Phase.follow_loop fun d hd => by rw [classify_of_mem_blankChars (hcs d hd)]; rfl]
    rfl
  | symbol hc =>
    rw [lexeme?, Phase.reads_cons, classify_of_mem_symbolChars hc]
    rfl
  | mark hmode hc =>
    rw [lexeme?, Phase.reads_cons, classify_outside hmode]
    rcases hc with rfl | rfl | rfl <;> rfl

/-- The automaton accepts the lexemes of the mode and nothing else. -/
theorem lexeme?_iff : lexeme? mode cs = some lexeme ↔ Lexical mode lexeme cs :=
  ⟨lexical_of_lexeme?, lexeme?_of_lexical⟩

end CanonicalLR.Scanner
