import CanonicalLR.Calculator.Expr
import CanonicalLR.Proofs.Scanner.Written

/-! Expressions as they are printed. What stands in a proper expression can be told apart again where
it is printed without blanks: an operator or a bracket follows on every name and number. -/

namespace CanonicalLR.Calculator

open Scanner
open Decimal (Unsigned)

/-! What can be printed. -/

structure Key.Proper (k : Key) : Prop where
  name : IsName .bracket k.name
  spec : ∀ spec, k.spec = some spec → IsName .spec spec

/-- An expression with names and numbers that a text can hold. -/
inductive Expr.Proper : Expr → Prop where
  | int {n : Nat} {span : Span} : n ≤ Text.maxInt64 → Proper (.int n span)
  | float {x : Float} {span : Span} : Unsigned x → Proper (.float x span)
  | var {name : String} {span : Span} : IsName .normal name → Proper (.var name span)
  | neg {e : Expr} {span : Span} : Proper e → Proper (.neg e span)
  | binary {op : Operator} {lhs rhs : Expr} {span : Span} : Proper lhs → Proper rhs →
      Proper (.binary op lhs rhs span)
  | call {f : Function} {arg : Expr} {span : Span} : Proper arg → Proper (.call f arg span)
  | latest {key : Key} {span : Span} : key.Proper → Proper (.latest key span)
  | sample {name spec : String} {time : Expr} {span : Span} : Key.Proper ⟨name, some spec⟩ →
      Proper time → Proper (.sample ⟨name, some spec⟩ time span)

theorem Expr.Proper.withSpan {e : Expr} (h : e.Proper) (span : Span) : (e.withSpan span).Proper := by
  cases h with
  | int hn => exact .int hn
  | float hx => exact .float hx
  | var hname => exact .var hname
  | neg he => exact .neg he
  | binary hl hr => exact .binary hl hr
  | call he => exact .call he
  | latest hkey => exact .latest hkey
  | sample hkey he => exact .sample hkey he

/-- The float literals in an expression. -/
def Expr.floats : Expr → List Float
  | int _ _ | var _ _ | latest _ _ => []
  | float x _ => [x]
  | neg e _ => e.floats
  | binary _ lhs rhs _ => lhs.floats ++ rhs.floats
  | call _ arg _ => arg.floats
  | sample _ time _ => time.floats

/-! How it is printed. -/

def Key.written (k : Key) : List Written :=
  match k.spec with
  | none => [.ident k.name]
  | some spec => [.ident k.name, .punct ':', .ident spec]

def Expr.written : Expr → List Written
  | int n _ => [.int n.toNat]
  | float x _ => [.float x]
  | var name _ => [.ident name]
  | neg e _ => .punct '(' :: .punct '-' :: (e.written ++ [.punct ')'])
  | binary op lhs rhs _ =>
    .punct '(' :: (lhs.written ++ .punct op.symbol :: (rhs.written ++ [.punct ')']))
  | call f arg _ => .ident f.name :: .punct '(' :: (arg.written ++ [.punct ')'])
  | latest key _ => .punct '<' :: (key.written ++ [.punct '>'])
  | sample key time _ =>
    .punct '<' :: (key.written ++ .punct '[' :: (time.written ++ [.punct ']', .punct '>']))

theorem Key.toList_text (k : Key) : k.text.toList = charsOf k.written := by
  obtain ⟨name, spec⟩ := k
  cases spec <;> simp [Key.text, Key.written, charsOf, Written.chars]

theorem Expr.Proper.toList_text {e : Expr} (h : e.Proper) : e.text.toList = charsOf e.written := by
  induction h with
  | @int n span _ =>
    have hn : (toString (n : Int)).toList = Nat.toDigits 10 n := by
      simp [toString, Int.repr, Nat.repr]
    simpa [Expr.text, Expr.written, charsOf, Written.chars] using hn
  | float => simp [Expr.text, Expr.written, charsOf, Written.chars]
  | var => simp [Expr.text, Expr.written, charsOf, Written.chars]
  | neg _ ih => simp [Expr.text, Expr.written, charsOf, Written.chars, ih]
  | binary _ _ ih ih' => simp [Expr.text, Expr.written, charsOf, Written.chars, ih, ih']
  | call _ ih => simp [Expr.text, Expr.written, charsOf, Written.chars, ih]
  | latest => simp [Expr.text, Expr.written, charsOf, Written.chars, Key.toList_text]
  | sample _ _ ih => simp [Expr.text, Expr.written, charsOf, Written.chars, Key.toList_text, ih]

/-! Where it is scanned. -/

variable {mode : Mode} {modes : List Mode} {c : Char} {ws rest : List Written}

/-- Brackets and operators of expressions, which leave the modes alone. -/
def innerChars : List Char := ['(', ')', '+', '-', '*', '/', '^']

theorem symbol_mem_innerChars (op : Operator) : op.symbol ∈ innerChars := by
  cases op <;> decide

theorem modesAfter_inner (hc : c ∈ innerChars) : (Written.punct c).modesAfter modes = modes := by
  have hall : innerChars.all (fun c => TokenType.char? c.val ∉ modeChars.map some) = true := by
    decide +kernel
  have hchar : (Token.punct (.single 0) c).char? ∉ modeChars.map some :=
    of_decide_eq_true (List.all_eq_true.mp hall c hc)
  exact modesAfter_of_char? hchar modes

theorem classify_inner (hmode : mode.inReference = false) (hc : c ∈ innerChars) :
    mode.classify c = .sign ∨ mode.classify c = .symbol := by
  have hall : innerChars.all (fun c => CharClass.of c = .sign ∨ CharClass.of c = .symbol) = true := by
    decide +kernel
  have hnormal := of_decide_eq_true (List.all_eq_true.mp hall c hc)
  rw [Mode.classify]
  rcases hnormal with h | h <;> simp [h, hmode]

theorem delimits_of_classify (h : mode.classify c = .sign ∨ mode.classify c = .symbol) :
    Delimits mode (charsOf (.punct c :: ws)).head? := by
  intro d hd
  obtain rfl : c = d := Option.some.inj hd
  exact h

theorem clean_inner (hmode : (modes.headD .normal).inReference = false) (hc : c ∈ innerChars)
    (h : Clean modes ws) : Clean modes (.punct c :: ws) :=
  ⟨Written.fits_punct (classify_inner hmode hc), by rwa [modesAfter_inner hc]⟩

theorem lexeme?_of_plain (hmode : mode.inReference = false) (cs : List Char) :
    lexeme? mode cs = lexeme? .normal cs := by
  have hclassify : mode.classify = Mode.normal.classify := by
    cases mode <;> first | rfl | cases hmode
  have hfollow : ∀ (cs : List Char) (phase : Phase),
      phase.follow mode cs = phase.follow .normal cs := by
    intro cs
    induction cs with
    | nil => exact fun _ => rfl
    | cons c cs ih => exact fun phase => by simp only [Phase.follow, hclassify, ih]
  rw [lexeme?, Phase.reads, hfollow]
  rfl

theorem isName_of_plain {name : String} (hmode : mode.inReference = false) :
    IsName mode name ↔ IsName .normal name := by
  constructor <;> rintro ⟨hlexeme, htrue, hfalse⟩
  · exact ⟨(lexeme?_of_plain hmode _).symm.trans hlexeme, htrue, hfalse⟩
  · exact ⟨(lexeme?_of_plain hmode _).trans hlexeme, htrue, hfalse⟩

theorem isName_function (f : Function) : IsName .normal f.name := by
  cases f <;> exact ⟨by decide +kernel, by decide, by decide⟩

theorem clean_ident {name : String} (hname : IsName (modes.headD .normal) name)
    (hends : Delimits (modes.headD .normal) (charsOf ws).head?) (h : Clean modes ws) :
    Clean modes (.ident name :: ws) := by
  refine ⟨Written.fits_ident hname hends, ?_⟩
  rcases modes with _ | ⟨m, outer⟩
  · exact h
  · cases m <;> exact h

theorem clean_key {k : Key} (hk : k.Proper) (hc : c = '>' ∨ (c = '[' ∧ k.spec ≠ none))
    (h : Clean ((Written.punct c).modesAfter (if k.spec = none then .bracket :: modes
      else .spec :: modes)) ws) :
    Clean modes (.punct '<' :: (k.written ++ .punct c :: ws)) := by
  have hsymbol : ∀ mode : Mode, mode.classify '<' = .symbol ∧ mode.classify ':' = .symbol ∧
      mode.classify c = .symbol := by
    intro mode
    rcases hc with rfl | ⟨rfl, -⟩ <;> cases mode <;> decide +kernel
  have hopen : (Written.punct '<').modesAfter modes = .bracket :: modes := by
    rcases modes with _ | ⟨m, outer⟩
    · rfl
    · cases m <;> rfl
  refine ⟨Written.fits_punct (Or.inr (hsymbol _).1), ?_⟩
  rw [hopen]
  obtain ⟨name, spec⟩ := k
  cases spec with
  | none =>
    refine clean_ident hk.name (delimits_of_classify (Or.inr (hsymbol _).2.2)) ?_
    exact ⟨Written.fits_punct (Or.inr (hsymbol _).2.2), h⟩
  | some spec =>
    refine clean_ident hk.name (delimits_of_classify (Or.inr (hsymbol _).2.1)) ?_
    refine ⟨Written.fits_punct (Or.inr (hsymbol _).2.1), ?_⟩
    refine clean_ident (hk.spec spec rfl) (delimits_of_classify (Or.inr (hsymbol _).2.2)) ?_
    exact ⟨Written.fits_punct (Or.inr (hsymbol _).2.2), h⟩

/-- Outside keys a proper expression is scanned as it is printed, if what follows ends names and
numbers. -/
theorem Expr.Proper.clean {e : Expr} (h : e.Proper) (hfinite : ∀ x ∈ e.floats, x.isFinite = true)
    (hmode : (modes.headD .normal).inReference = false)
    (hends : Delimits (modes.headD .normal) (charsOf rest).head?) (hrest : Clean modes rest) :
    Clean modes (e.written ++ rest) := by
  have hinner : ∀ {modes : List Mode} {c : Char} {ws : List Written},
      (modes.headD .normal).inReference = false → c ∈ innerChars →
      Delimits (modes.headD .normal) (charsOf (.punct c :: ws)).head? :=
    fun hmode hc => delimits_of_classify (classify_inner hmode hc)
  induction h generalizing modes rest with
  | int hn =>
    refine ⟨Written.fits_int hn hends, ?_⟩
    rcases modes with _ | ⟨m, outer⟩
    · exact hrest
    · cases m <;> exact hrest
  | @float x span hx =>
    have hfaithful := Decimal.faithful_of_isFinite hx (hfinite x (List.mem_singleton_self x))
    refine ⟨Written.fits_float hfaithful hmode hends, ?_⟩
    rcases modes with _ | ⟨m, outer⟩
    · exact hrest
    · cases m <;> exact hrest
  | var hname => exact clean_ident ((isName_of_plain hmode).mpr hname) hends hrest
  | neg _ ih =>
    simp only [Expr.written, List.cons_append, List.append_assoc, List.nil_append]
    refine clean_inner hmode (by decide) (clean_inner hmode (by decide) ?_)
    exact ih hfinite hmode (hinner hmode (by decide)) (clean_inner hmode (by decide) hrest)
  | @binary op lhs rhs span _ _ ih ih' =>
    obtain ⟨hl, hr⟩ := List.forall_mem_append.mp hfinite
    simp only [Expr.written, List.cons_append, List.append_assoc, List.nil_append]
    refine clean_inner hmode (by decide) ?_
    refine ih hl hmode (hinner hmode (symbol_mem_innerChars op)) ?_
    refine clean_inner hmode (symbol_mem_innerChars op) ?_
    exact ih' hr hmode (hinner hmode (by decide)) (clean_inner hmode (by decide) hrest)
  | @call f arg span _ ih =>
    simp only [Expr.written, List.cons_append, List.append_assoc, List.nil_append]
    refine clean_ident ((isName_of_plain hmode).mpr (isName_function f))
      (hinner hmode (by decide)) (clean_inner hmode (by decide) ?_)
    exact ih hfinite hmode (hinner hmode (by decide)) (clean_inner hmode (by decide) hrest)
  | @latest key span hkey =>
    simp only [Expr.written, List.cons_append, List.append_assoc, List.nil_append]
    refine clean_key hkey (Or.inl rfl) ?_
    split <;> exact hrest
  | @sample name spec time span hkey _ ih =>
    simp only [Expr.written, List.cons_append, List.append_assoc, List.nil_append]
    refine clean_key hkey (Or.inr ⟨rfl, by simp⟩) ?_
    have hsymbol : ∀ mode : Mode, mode.classify ']' = .symbol ∧ mode.classify '>' = .symbol := by
      intro mode
      cases mode <;> decide +kernel
    refine ih hfinite rfl (delimits_of_classify (Or.inr (hsymbol _).1)) ?_
    exact ⟨Written.fits_punct (Or.inr (hsymbol _).1), Written.fits_punct (Or.inr (hsymbol _).2),
      hrest⟩

end CanonicalLR.Calculator
