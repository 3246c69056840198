import CanonicalLR.Proofs.GrammarFile.Names
import CanonicalLR.Proofs.Text

/-! Grammar files in writing. A statement stands on a line of its own with single spaces between its
words. Blank lines and comments may stand anywhere, also behind statements. -/

namespace CanonicalLR.GrammarFile

open CanonicalLR.Text

def Terminal.word : Terminal → Word
  | char c => ⟨.sym, [c]⟩
  | kind k => ⟨.atom, k.name.toList⟩

def Part.word : Part → Word
  | terminal t => t.word
  | nonterminal name => ⟨.var, name.toList⟩

def levelWord (level : Int) : Word := ⟨.number, (toString level).toList⟩

def assocWord : Assoc → Word
  | .left => ⟨.directive, "%left".toList⟩
  | .right => ⟨.directive, "%right".toList⟩
  | .nonassoc => ⟨.directive, "%nonassoc".toList⟩

def labelWord (name : String) : Word := ⟨.label, name.toList ++ [':']⟩

def Declaration.words (d : Declaration) : List Word :=
  assocWord d.assoc :: levelWord d.level :: d.terminals.map Terminal.word

def precWords (level : Int) : List Word := [⟨.directive, "%prec".toList⟩, levelWord level]

def Production.words (p : Production) : List Word :=
  (p.label.map labelWord).toList ++ ⟨.var, p.lhs.toList⟩ :: ⟨.arrow, "->".toList⟩ ::
    (p.rhs.map Part.word ++ p.prec.elim [] precWords)

inductive Statement where
  | start (name : String)
  | declaration (d : Declaration)
  | production (p : Production)

namespace Statement

def words : Statement → List Word
  | start name => [⟨.directive, "%start".toList⟩, ⟨.var, name.toList⟩]
  | declaration d => d.words
  | production p => p.words

def start? : Statement → Option String
  | start name => some name
  | _ => none

def declaration? : Statement → Option Declaration
  | declaration d => some d
  | _ => none

def production? : Statement → Option Production
  | production p => some p
  | _ => none

end Statement

/-- A line of a file. -/
structure Row where
  statement : Option Statement := none
  gap : List Char := []
  comment : Option (List Char) := none

namespace Row

variable {row : Row}

def start? (row : Row) : Option String := row.statement.bind Statement.start?

def declaration? (row : Row) : Option Declaration := row.statement.bind Statement.declaration?

def production? (row : Row) : Option Production := row.statement.bind Statement.production?

def words (row : Row) : List Word := row.statement.elim [] Statement.words

def trailer (row : Row) : List Char := row.gap ++ row.comment.elim [] ('-' :: '-' :: ·)

def chars (row : Row) : List Char := spaced row.words ++ row.trailer

@[mk_iff]
structure Formed (row : Row) : Prop where
  gap : row.gap.all isGap = true
  comment : ∀ text ∈ row.comment, '\n' ∉ text
  apart : row.statement.isSome = true → row.comment.isSome = true → row.gap ≠ []

theorem Formed.of_mem_gap (h : row.Formed) {c : Char} (hc : c ∈ row.gap) : isGap c = true :=
  List.all_eq_true.mp h.gap c hc

instance (row : Row) : Decidable row.Formed := decidable_of_iff' _ (formed_iff row)

end Row

def printed (rows : List Row) : String := String.ofList (['\n'].intercalate (rows.map Row.chars))

/-- The rows hold the statements of the file, those of each sort in their order. -/
@[mk_iff]
structure Layout (file : GrammarFile) (rows : List Row) : Prop where
  formed : ∀ row ∈ rows, row.Formed
  start : rows.filterMap Row.start? = file.start.toList
  declarations : rows.filterMap Row.declaration? = file.declarations
  productions : rows.filterMap Row.production? = file.productions

instance (file : GrammarFile) (rows : List Row) : Decidable (Layout file rows) :=
  decidable_of_iff' _ (layout_iff file rows)

/-- The numbers of the lines with productions; `first` is the number of the first row. -/
def productionLines (first : Nat) (rows : List Row) : List Nat :=
  ((rows.zipIdx first).filter fun (row, _) => row.production?.isSome).map (·.2)

/-! What can be written. -/

def isSmall (name : String) : Bool :=
  match name.toList with
  | [] => false
  | c :: cs => c.isLower && cs.all isNameChar

def IsLevel (level : Int) : Prop := 0 ≤ level ∧ level ≤ maxInt32

instance (level : Int) : Decidable (IsLevel level) := inferInstanceAs (Decidable (_ ∧ _))

@[mk_iff]
structure Declaration.Printable (d : Declaration) : Prop where
  level : IsLevel d.level
  terminals : ∀ t ∈ d.terminals, t ∈ Terminal.written
  nonempty : d.terminals ≠ []

@[mk_iff]
structure Production.Printable (p : Production) : Prop where
  label : ∀ name ∈ p.label, isSmall name = true
  lhs : isCapitalised p.lhs = true
  rhs : ∀ part ∈ p.rhs, part.isWritten = true
  prec : ∀ level ∈ p.prec, IsLevel level

@[mk_iff]
structure Printable (file : GrammarFile) : Prop where
  start : ∀ name ∈ file.start, isCapitalised name = true
  declarations : ∀ d ∈ file.declarations, d.Printable
  productions : ∀ p ∈ file.productions, p.Printable
  nonempty : file.productions ≠ []

instance (d : Declaration) : Decidable d.Printable :=
  decidable_of_iff' _ (Declaration.printable_iff d)

instance (p : Production) : Decidable p.Printable :=
  decidable_of_iff' _ (Production.printable_iff p)

instance (file : GrammarFile) : Decidable file.Printable :=
  decidable_of_iff' _ (printable_iff file)

def Statement.Printable : Statement → Prop
  | start name => isCapitalised name = true
  | declaration d => d.Printable
  | production p => p.Printable

variable {file : GrammarFile} {rows : List Row} {row : Row} {level : Int} {name : String}
  {t : Terminal} {part : Part} {d : Declaration} {p : Production} {s : Statement} {line : Nat}

theorem Layout.printable (h : Layout file rows) (hfile : file.Printable) (hrow : row ∈ rows)
    (hs : row.statement = some s) : s.Printable := by
  cases s with
  | start name =>
    refine hfile.start name (Option.mem_toList.mp (h.start ▸ ?_))
    exact List.mem_filterMap.mpr ⟨row, hrow, by rw [Row.start?, hs]; rfl⟩
  | declaration d =>
    refine hfile.declarations d (h.declarations ▸ ?_)
    exact List.mem_filterMap.mpr ⟨row, hrow, by rw [Row.declaration?, hs]; rfl⟩
  | production p =>
    refine hfile.productions p (h.productions ▸ ?_)
    exact List.mem_filterMap.mpr ⟨row, hrow, by rw [Row.production?, hs]; rfl⟩

/-! The words of statements are words of grammar files. -/

theorem formed_var (h : isCapitalised name = true) : Word.Formed ⟨.var, name.toList⟩ := by
  unfold isCapitalised at h
  split at h
  · cases h
  · next c cs hname =>
    rw [Bool.and_eq_true, List.all_eq_true] at h
    rw [hname]
    exact Lexeme.var h.1 h.2

theorem exists_of_isSmall (h : isSmall name = true) :
    ∃ c cs, name.toList = c :: cs ∧ c.isLower = true ∧ ∀ x ∈ cs, isNameChar x = true := by
  unfold isSmall at h
  split at h
  · cases h
  · next c cs hname =>
    rw [Bool.and_eq_true, List.all_eq_true] at h
    exact ⟨c, cs, hname, h⟩

theorem formed_labelWord (h : isSmall name = true) : (labelWord name).Formed := by
  obtain ⟨c, cs, hname, hlower, hcs⟩ := exists_of_isSmall h
  rw [labelWord, hname]
  exact .label hlower hcs

theorem formed_kind (k : TokenKind) : Word.Formed ⟨.atom, k.name.toList⟩ := by
  have hsmall : isSmall k.name = true := by cases k <;> decide
  obtain ⟨c, cs, hname, hlower, hcs⟩ := exists_of_isSmall hsmall
  rw [hname]
  exact .atom hlower hcs

theorem formed_terminal (h : t ∈ Terminal.written) : t.word.Formed := by
  rcases List.mem_append.mp h with hmem | hmem
  · obtain ⟨c, hc, rfl⟩ := List.mem_map.mp hmem
    exact Lexeme.sym hc
  · obtain ⟨k, hk, rfl⟩ := List.mem_map.mp hmem
    exact formed_kind k

theorem formed_part (h : part.isWritten = true) : part.word.Formed := by
  cases part with
  | terminal t => exact formed_terminal (List.contains_iff_mem.mp h)
  | nonterminal name => exact formed_var h

theorem toList_level {n : Nat} : (toString (n : Int)).toList = Nat.toDigits 10 n :=
  Nat.toList_repr

theorem formed_levelWord (h : IsLevel level) : (levelWord level).Formed := by
  obtain ⟨n, rfl⟩ := Int.eq_ofNat_of_zero_le h.1
  have hdigit : ∀ c ∈ Nat.toDigits 10 n, c.isDigit = true := fun c => isDigit_of_mem
  obtain ⟨c, cs, hcs⟩ : ∃ c cs, Nat.toDigits 10 n = c :: cs :=
    List.exists_cons_of_ne_nil Nat.toDigits_ne_nil
  rw [levelWord, toList_level, hcs]
  rw [hcs, List.forall_mem_cons] at hdigit
  exact .number hdigit.1 hdigit.2

theorem formed_assocWord {assoc : Assoc} : (assocWord assoc).Formed := by
  cases assoc <;> exact .directive rfl (List.all_eq_true.mp rfl)

theorem Statement.Printable.formed (h : s.Printable) : ∀ w ∈ s.words, w.Formed := by
  cases s with
  | start name =>
    exact List.forall_mem_cons.mpr
      ⟨.directive rfl (List.all_eq_true.mp rfl), List.forall_mem_singleton.mpr (formed_var h)⟩
  | declaration d =>
    have h : d.Printable := h
    refine List.forall_mem_cons.mpr ⟨formed_assocWord,
      List.forall_mem_cons.mpr ⟨formed_levelWord h.level, fun w hw => ?_⟩⟩
    obtain ⟨t, ht, rfl⟩ := List.mem_map.mp hw
    exact formed_terminal (h.terminals t ht)
  | production p =>
    have h : p.Printable := h
    have hlabel : ∀ w ∈ (p.label.map labelWord).toList, w.Formed := by
      intro w hw
      obtain ⟨name, hname, rfl⟩ := Option.map_eq_some_iff.mp (Option.mem_toList.mp hw)
      exact formed_labelWord (h.label name hname)
    have hrhs : ∀ w ∈ p.rhs.map Part.word, w.Formed := by
      intro w hw
      obtain ⟨part, hpart, rfl⟩ := List.mem_map.mp hw
      exact formed_part (h.rhs part hpart)
    have hprec : ∀ w ∈ p.prec.elim [] precWords, w.Formed := by
      cases hlevel : p.prec with
      | none => exact List.forall_mem_nil _
      | some level =>
        exact List.forall_mem_cons.mpr ⟨.directive rfl (List.all_eq_true.mp rfl),
          List.forall_mem_singleton.mpr (formed_levelWord (h.prec level hlevel))⟩
    refine List.forall_mem_append.mpr ⟨hlabel, List.forall_mem_cons.mpr ⟨formed_var h.lhs,
      List.forall_mem_cons.mpr ⟨.arrow, List.forall_mem_append.mpr ⟨hrhs, hprec⟩⟩⟩⟩

/-! Rows of words. -/

theorem Row.words_of_some (hs : row.statement = some s) : row.words = s.words := by
  rw [Row.words, hs, Option.elim_some]

theorem Row.words_of_none (hs : row.statement = none) : row.words = [] := by
  rw [Row.words, hs, Option.elim_none]

theorem Statement.words_ne_nil : s.words ≠ [] := by
  cases s <;> simp [words, Declaration.words, Production.words]

theorem wordsFrom_trailer {gap : List Char} {comment : Option (List Char)} {fuel : Nat}
    {afterWord : Bool} (hgap : ∀ c ∈ gap, isGap c = true)
    (hapart : afterWord = true → comment.isSome = true → gap ≠ []) :
    wordsFrom line fuel afterWord (gap ++ comment.elim [] ('-' :: '-' :: ·)) = .ok [] := by
  induction gap generalizing fuel afterWord with
  | nil =>
    cases fuel with
    | zero => rfl
    | succ fuel =>
      cases comment with
      | none => rfl
      | some text =>
        cases afterWord with
        | true => exact absurd rfl (hapart rfl rfl)
        | false => rfl
  | cons c gap ih =>
    rw [List.forall_mem_cons] at hgap
    cases fuel with
    | zero => rfl
    | succ fuel =>
      rw [List.cons_append, wordsFrom, if_pos hgap.1]
      exact ih hgap.2 fun h => absurd h Bool.false_ne_true

theorem Row.Formed.head_trailer (h : row.Formed) (hs : row.statement.isSome = true) :
    row.trailer.head?.all isGap = true := by
  unfold Row.trailer
  cases hgap : row.gap with
  | cons c gap => exact h.of_mem_gap (hgap ▸ List.mem_cons_self)
  | nil =>
    cases hcomment : row.comment with
    | none => rfl
    | some text => exact absurd hgap (h.apart hs (by rw [hcomment]; rfl))

theorem Row.Formed.words_chars (h : row.Formed) (hrow : ∀ s ∈ row.statement, s.Printable) :
    GrammarFile.words line row.chars = .ok row.words := by
  unfold GrammarFile.words Row.chars
  cases hs : row.statement with
  | none =>
    rw [Row.words_of_none hs]
    exact wordsFrom_trailer (fun _ => h.of_mem_gap) fun h => absurd h Bool.false_ne_true
  | some s =>
    have hsome : row.statement.isSome = true := by rw [hs]; rfl
    rw [Row.words_of_some hs]
    refine wordsFrom_spaced (hrow s hs).formed s.words_ne_nil (h.head_trailer hsome)
      (fun fuel => wordsFrom_trailer (fun _ => h.of_mem_gap) fun _ => h.apart hsome) ?_
    rw [List.length_append]
    exact Nat.le_add_right _ _

theorem feed_notMem_spaced {ws : List Word} (h : ∀ w ∈ ws, w.Formed) : '\n' ∉ spaced ws := by
  induction ws with
  | nil => exact List.not_mem_nil
  | cons w ws ih =>
    rw [List.forall_mem_cons] at h
    have hw : '\n' ∉ w.chars := fun hmem => (h.1.not_gap hmem).2 rfl
    cases ws with
    | nil => simpa [spaced] using hw
    | cons w' ws =>
      rw [spaced_cons_cons, List.mem_append, List.mem_cons]
      rintro (hmem | hmem | hmem)
      · exact hw hmem
      · cases hmem
      · exact ih h.2 hmem

theorem Row.Formed.feed_notMem (h : row.Formed) (hrow : ∀ s ∈ row.statement, s.Printable) :
    '\n' ∉ row.chars := by
  have hwords : '\n' ∉ spaced row.words := by
    refine feed_notMem_spaced ?_
    cases hs : row.statement with
    | none =>
      rw [Row.words_of_none hs]
      exact List.forall_mem_nil _
    | some s =>
      rw [Row.words_of_some hs]
      exact (hrow s hs).formed
  have hgap : '\n' ∉ row.gap := fun hmem => absurd (h.of_mem_gap hmem) (by decide)
  have hcomment : '\n' ∉ row.comment.elim [] ('-' :: '-' :: ·) := by
    cases htext : row.comment with
    | none => exact List.not_mem_nil
    | some text => simpa using h.comment text htext
  simp [Row.chars, Row.trailer, hwords, hgap, hcomment]

end CanonicalLR.GrammarFile
