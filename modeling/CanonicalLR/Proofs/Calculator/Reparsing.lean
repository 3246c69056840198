import CanonicalLR.Proofs.Calculator.Parsing
import CanonicalLR.Proofs.Calculator.Printing

/-! Printed expressions as the parser reads them. The reader makes a proper expression of the tokens
that were written for it, and what it makes of any scanned tokens is a proper expression. -/

namespace CanonicalLR.Calculator

open Scanner

variable {p : Int} {cs : List Context} {e r : Expr} {t : Token} {ts rest : List Token}

/-- The expression without the places of its nodes. -/
def Expr.bare : Expr → Expr
  | int n _ => int n (.single 0)
  | float x _ => float x (.single 0)
  | var name _ => var name (.single 0)
  | neg e _ => neg e.bare (.single 0)
  | binary op lhs rhs _ => binary op lhs.bare rhs.bare (.single 0)
  | call f arg _ => call f arg.bare (.single 0)
  | latest key _ => latest key (.single 0)
  | sample key time _ => sample key time.bare (.single 0)

theorem bare_withSpan (e : Expr) (span : Span) : (e.withSpan span).bare = e.bare := by
  cases e <;> rfl

theorem bare_enclose (t : Token) (e : Expr) (t₁ : Token) : (enclose t e t₁).bare = e.bare :=
  bare_withSpan e _

/-! Reading what was written. -/

theorem exists_append_of_forall₂ {α β : Type*} {R : α → β → Prop} {xs ys : List α} {zs : List β}
    (h : List.Forall₂ R (xs ++ ys) zs) :
    ∃ front back, zs = front ++ back ∧ List.Forall₂ R xs front ∧ List.Forall₂ R ys back := by
  induction xs generalizing zs with
  | nil => exact ⟨[], zs, rfl, .nil, h⟩
  | cons x xs ih =>
    cases h with
    | cons hx hrest =>
      obtain ⟨front, back, rfl, hfront, hback⟩ := ih hrest
      exact ⟨_ :: front, back, rfl, .cons hx hfront, hback⟩

theorem mark_operator (o : Operator) (span : Span) :
    mark? ((Written.punct o.symbol).token span) = some (.op o) := by
  cases o <;> rfl

theorem ofName?_name (f : Function) : Function.ofName? f.name = some f := by
  cases f <;> decide

/-- The reader makes this expression of the tokens wherever an operand is to come, unless a bracket
behind them makes a call of a name. -/
def Reads (p : Int) (ts : List Token) (e : Expr) : Prop :=
  ∀ cs rest, take .lparen rest = none → start p cs (ts ++ rest) = resume p cs e rest

namespace Reads

theorem minus (t : Of .lparen) (t₁ : Of (.op .sub)) (h : Reads p ts e) (t₂ : Of .rparen) :
    Reads p (t.1 :: t₁.1 :: (ts ++ [t₂.1]))
      (enclose t.1 (.neg e (t₁.1.span.around [e.span])) t₂.1) := by
  intro cs rest _
  rw [List.cons_append, List.cons_append, List.append_assoc, List.singleton_append, start_paren,
    start_minus, h _ _ (take_eq_none t₂ nofun), resume_minus (stops_of t₂ nofun _), resume_paren]

theorem operator {o : Operator} {ts' : List Token} {e' : Expr} (t : Of .lparen) (h : Reads p ts e)
    (t₁ : Of (.op o)) (h' : Reads p ts' e') (t₂ : Of .rparen) :
    Reads p (t.1 :: (ts ++ t₁.1 :: (ts' ++ [t₂.1])))
      (enclose t.1 (.binary o e e' (e.span.around [t₁.1.span, e'.span])) t₂.1) := by
  intro cs rest _
  have hextends : o.extends (Context.pending p (.paren t :: cs)) := trivial
  rw [List.cons_append, List.append_assoc, List.cons_append, List.append_assoc,
    List.singleton_append, start_paren, h _ _ (take_eq_none t₁ nofun), resume_extends t₁ hextends,
    h' _ _ (take_eq_none t₂ nofun), resume_operator (stops_of t₂ nofun _), resume_paren]

theorem call {f : Function} (t : Of .ident) (hf : functionOf? t.1 = some f) (t₁ : Of .lparen)
    (h : Reads p ts e) (t₂ : Of .rparen) :
    Reads p (t.1 :: t₁.1 :: (ts ++ [t₂.1]))
      (.call f e (t.1.span.around [t₁.1.span, e.span, t₂.1.span])) := by
  intro cs rest _
  rw [List.cons_append, List.cons_append, List.append_assoc, List.singleton_append, start_call,
    h _ _ (take_eq_none t₂ nofun), resume_call, call?, hf]
  rfl

theorem named {name : String} (t : Of .less) (t₁ : Of .ident) (hname : identOf? t₁.1 = some name)
    (t₂ : Of .greater) :
    Reads p [t.1, t₁.1, t₂.1] (enclose t.1 (.latest ⟨name, none⟩ t₁.1.span) t₂.1) := by
  intro cs rest _
  rw [List.cons_append, List.cons_append, List.singleton_append,
    start_name t t₁ (take_eq_none t₂ nofun), latest?, hname]
  exact shut_of _ _ t₂ _ _

variable {name spec : String} (t : Of .less) (t₁ : Of .ident) (hname : identOf? t₁.1 = some name)
  (t₂ : Of .colon) (t₃ : Of .ident) (hspec : identOf? t₃.1 = some spec)
include hname hspec

theorem specified (t₄ : Of .greater) : Reads p [t.1, t₁.1, t₂.1, t₃.1, t₄.1]
    (enclose t.1 (.latest ⟨name, some spec⟩ (t₁.1.span.around [t₂.1.span, t₃.1.span])) t₄.1) := by
  intro cs rest _
  rw [List.cons_append, List.cons_append, List.cons_append, List.cons_append,
    List.singleton_append, start_spec t t₁ t₂ t₃ (take_eq_none t₄ nofun), latestSpec?, hname, hspec]
  exact shut_of _ _ t₄ _ _

theorem timed (t₄ : Of .lbracket) (h : Reads p ts e) (t₅ : Of .rbracket) (t₆ : Of .greater) :
    Reads p (t.1 :: t₁.1 :: t₂.1 :: t₃.1 :: t₄.1 :: (ts ++ [t₅.1, t₆.1]))
      (enclose t.1 (.sample ⟨name, some spec⟩ e
        (t₁.1.span.around [t₂.1.span, t₃.1.span, t₄.1.span, e.span, t₅.1.span])) t₆.1) := by
  intro cs rest _
  rw [List.cons_append, List.cons_append, List.cons_append, List.cons_append, List.cons_append,
    List.append_assoc, List.cons_append, List.singleton_append, start_time,
    h _ _ (take_eq_none t₅ nofun), resume_time, sample?, hname, hspec]
  exact shut_of _ _ t₆ _ _

end Reads

theorem exists_cons {m : Mark} {w : Written} {ws : List Written}
    (hw : ∀ span, mark? (w.token span) = some m) (h : List.Forall₂ Written.Is (w :: ws) ts) :
    ∃ (t : Of m) (rest : List Token), ts = t.1 :: rest ∧ t.1.payload = w.payload ∧
      List.Forall₂ Written.Is ws rest := by
  cases h with
  | cons ht hrest =>
    obtain ⟨span, rfl⟩ := ht
    exact ⟨⟨_, hw span⟩, _, rfl, rfl, hrest⟩

theorem exists_concat {m : Mark} {w : Written} {ws : List Written}
    (hw : ∀ span, mark? (w.token span) = some m) (h : List.Forall₂ Written.Is (ws ++ [w]) ts) :
    ∃ (front : List Token) (t : Of m), ts = front ++ [t.1] ∧
      List.Forall₂ Written.Is ws front := by
  obtain ⟨front, _, rfl, hfront, hlast⟩ := exists_append_of_forall₂ h
  obtain ⟨t, _, rfl, -, hnil⟩ := exists_cons hw hlast
  cases hnil
  exact ⟨front, t, rfl, hfront⟩

theorem exists_singleton {w : Written} (h : List.Forall₂ Written.Is [w] ts) :
    ∃ span, ts = [w.token span] := by
  cases h with
  | cons ht hnil =>
    cases hnil
    obtain ⟨span, rfl⟩ := ht
    exact ⟨span, rfl⟩

theorem identOf?_of_payload {name : String} (h : t.payload = .ident name) :
    identOf? t = some name := by
  rw [identOf?, h]

/-- Of what was written for a proper expression the reader makes this expression again. -/
theorem exists_reads (h : e.Proper) (hts : List.Forall₂ Written.Is e.written ts) :
    ∃ e', e'.bare = e.bare ∧ Reads p ts e' := by
  induction h generalizing ts with
  | @int n _ _ =>
    obtain ⟨span, rfl⟩ := exists_singleton hts
    exact ⟨.int n span, rfl, fun cs rest _ => start_int ⟨(Written.int n).token span, rfl⟩⟩
  | @float x _ =>
    obtain ⟨span, rfl⟩ := exists_singleton hts
    exact ⟨.float x span, rfl, fun cs rest _ => start_float ⟨(Written.float x).token span, rfl⟩⟩
  | @var name _ _ =>
    obtain ⟨span, rfl⟩ := exists_singleton hts
    exact ⟨.var name span, rfl,
      fun cs rest hrest => start_ident ⟨(Written.ident name).token span, rfl⟩ hrest⟩
  | neg _ ih =>
    obtain ⟨t, _, rfl, -, h₁⟩ := exists_cons (m := .lparen) (fun _ => rfl) hts
    obtain ⟨t₁, _, rfl, -, h₂⟩ := exists_cons (m := .op .sub) (fun _ => rfl) h₁
    obtain ⟨inner, t₂, rfl, hinner⟩ := exists_concat (m := .rparen) (fun _ => rfl) h₂
    obtain ⟨e', hbare, he'⟩ := ih hinner
    exact ⟨_, by rw [bare_enclose, Expr.bare, hbare, Expr.bare], he'.minus t t₁ t₂⟩
  | @binary op lhs rhs _ _ _ ih ih' =>
    obtain ⟨t, _, rfl, -, h₁⟩ := exists_cons (m := .lparen) (fun _ => rfl) hts
    obtain ⟨front, _, rfl, hfront, h₂⟩ := exists_append_of_forall₂ h₁
    obtain ⟨t₁, _, rfl, -, h₃⟩ := exists_cons (mark_operator op) h₂
    obtain ⟨back, t₂, rfl, hback⟩ := exists_concat (m := .rparen) (fun _ => rfl) h₃
    obtain ⟨lhs', hlhs, hl⟩ := ih hfront
    obtain ⟨rhs', hrhs, hr⟩ := ih' hback
    exact ⟨_, by rw [bare_enclose, Expr.bare, hlhs, hrhs, Expr.bare], .operator t hl t₁ hr t₂⟩
  | @call f arg _ _ ih =>
    obtain ⟨t, _, rfl, hname, h₁⟩ := exists_cons (m := .ident) (fun _ => rfl) hts
    obtain ⟨t₁, _, rfl, -, h₂⟩ := exists_cons (m := .lparen) (fun _ => rfl) h₁
    obtain ⟨inner, t₂, rfl, hinner⟩ := exists_concat (m := .rparen) (fun _ => rfl) h₂
    obtain ⟨e', hbare, he'⟩ := ih hinner
    have hf : functionOf? t.1 = some f := by
      rw [functionOf?, identOf?_of_payload hname]
      exact ofName?_name f
    exact ⟨_, by rw [Expr.bare, hbare, Expr.bare], .call t hf t₁ he' t₂⟩
  | @latest key _ _ =>
    obtain ⟨t, _, rfl, -, h₁⟩ := exists_cons (m := .less) (fun _ => rfl) hts
    obtain ⟨inner, last, rfl, hinner⟩ := exists_concat (m := .greater) (fun _ => rfl) h₁
    obtain ⟨name, spec⟩ := key
    cases spec with
    | none =>
      obtain ⟨t₁, _, rfl, hname, hnil⟩ := exists_cons (m := .ident) (fun _ => rfl) hinner
      cases hnil
      exact ⟨_, by rw [bare_enclose, Expr.bare, Expr.bare],
        .named t t₁ (identOf?_of_payload hname) last⟩
    | some spec =>
      obtain ⟨t₁, _, rfl, hname, h₃⟩ := exists_cons (m := .ident) (fun _ => rfl) hinner
      obtain ⟨t₂, _, rfl, -, h₄⟩ := exists_cons (m := .colon) (fun _ => rfl) h₃
      obtain ⟨t₃, _, rfl, hspec, hnil⟩ := exists_cons (m := .ident) (fun _ => rfl) h₄
      cases hnil
      exact ⟨_, by rw [bare_enclose, Expr.bare, Expr.bare],
        .specified t t₁ (identOf?_of_payload hname) t₂ t₃ (identOf?_of_payload hspec) last⟩
  | @sample name spec time _ _ _ ih =>
    obtain ⟨t, _, rfl, -, h₁⟩ := exists_cons (m := .less) (fun _ => rfl) hts
    obtain ⟨t₁, _, rfl, hname, h₂⟩ := exists_cons (m := .ident) (fun _ => rfl) h₁
    obtain ⟨t₂, _, rfl, -, h₃⟩ := exists_cons (m := .colon) (fun _ => rfl) h₂
    obtain ⟨t₃, _, rfl, hspec, h₄⟩ := exists_cons (m := .ident) (fun _ => rfl) h₃
    obtain ⟨t₄, _, rfl, -, h₅⟩ := exists_cons (m := .lbracket) (fun _ => rfl) h₄
    obtain ⟨inner, _, rfl, hinner, h₆⟩ := exists_append_of_forall₂ h₅
    obtain ⟨t₅, _, rfl, -, h₇⟩ := exists_cons (m := .rbracket) (fun _ => rfl) h₆
    obtain ⟨t₆, _, rfl, -, hnil⟩ := exists_cons (m := .greater) (fun _ => rfl) h₇
    cases hnil
    obtain ⟨e', hbare, he'⟩ := ih hinner
    exact ⟨_, by rw [bare_enclose, Expr.bare, hbare, Expr.bare],
      .timed t t₁ (identOf?_of_payload hname) t₂ t₃ (identOf?_of_payload hspec) t₄ he' t₅ t₆⟩

end CanonicalLR.Calculator
