import CanonicalLR.Proofs.Calculator.Stack

/-! What the calculator grammar allows with a stack. Every token that the reader can go on with is
shifted, or some rule is reduced before it. -/

namespace CanonicalLR.Calculator

open Vocabulary

variable {p : Int} {g : Grammar} {path : List SymbolId} {s : SymbolId} {i d : Nat}
  {ahead : Option SymbolId} {f : Form} {st : Stack} {cs : List Context} {ts : List Token}

theorem isTerminal_symbol (m : Mark) : registry.isTerminal m.symbol = true := by
  have hall : (Mark.all.map Mark.symbol).all registry.isTerminal = true := by decide +kernel
  exact List.all_eq_true.mp hall _ (List.mem_map_of_mem m.mem_all)

namespace Ruled

variable (h : Ruled p g)
include h

theorem leads_symbol (m : Mark) (rest : List SymbolId) (ahead : Option SymbolId) :
    Leads g.analysis.symbols g.analysis.rules m.symbol (m.symbol :: rest) ahead := by
  refine Or.inl (.head ?_)
  rw [show g.analysis.symbols = registry from h.symbols]
  exact isTerminal_symbol m

theorem predicts {rest : List SymbolId} (hr : Reaches g.analysis path i d ahead)
    (hd : (g.analysis.rhs i).drop d = f.sides.1 :: rest)
    (hs : Leads g.analysis.symbols g.analysis.rules s rest ahead) :
    Reaches g.analysis path f.id 0 (some s) := by
  refine hr.predict ⟨f.placed p, h.placed f, ?_, fun t ht => ?_⟩
  · rw [← List.head?_drop, hd]
    rfl
  · rw [← Option.some.inj ht, ← List.tail_drop, hd]
    exact hs

/-- Where an expression is awaited, each of its forms is, before an operator too. -/
theorem predicts_expr {rest : List SymbolId} (hr : Reaches g.analysis path i d ahead)
    (hd : (g.analysis.rhs i).drop d = expr :: rest) (hf : f.sides.1 = expr)
    (hs : Leads g.analysis.symbols g.analysis.rules s rest ahead ∨
      ∃ o : Operator, s = (Mark.op o).symbol) :
    Reaches g.analysis path f.id 0 (some s) := by
  rcases hs with hs | ⟨o, rfl⟩
  · exact h.predicts hr (hf ▸ hd) hs
  · have hsides : o.form.sides = (expr, [expr, (Mark.op o).symbol, expr]) := by cases o <;> rfl
    have ho : Reaches g.analysis path o.form.id 0 none := by
      refine hr.predict ⟨o.form.placed p, h.placed o.form, ?_, nofun⟩
      rw [← List.head?_drop, hd]
      exact congrArg some (congrArg Prod.fst hsides).symm
    refine h.predicts ho ?_ (h.leads_symbol (.op o) [expr] none)
    rw [h.rhs_id, hsides, hf]
    rfl

theorem advance (hr : Reaches g.analysis path f.id 0 ahead) {ids rest : List SymbolId}
    (hsides : f.sides.2 = ids ++ rest) :
    Reaches g.analysis (path ++ ids) f.id ids.length ahead ∧
      (g.analysis.rhs f.id).drop ids.length = rest := by
  have hd : (g.analysis.rhs f.id).drop 0 = ids ++ rest := by rw [h.rhs_id, List.drop_zero, hsides]
  simpa using hr.advance hd

theorem canShift (hr : Reaches g.analysis path f.id 0 ahead) {ids rest : List SymbolId}
    (hsides : f.sides.2 = ids ++ s :: rest) : CanShift g.analysis (path ++ ids) s := by
  obtain ⟨hr', hd⟩ := h.advance hr hsides
  exact .of_drop hr' hd

theorem canReduce (hr : Reaches g.analysis path f.id 0 (some s)) :
    CanReduce g.analysis (path ++ f.sides.2) f.id s :=
  ⟨f.placed p, h.placed f, (h.advance hr (List.append_nil _).symm).1⟩

theorem opens_reference (hr : Reaches g.analysis path Form.ref.id 0 ahead)
    (hf : f.sides.1 = reference) :
    Reaches g.analysis (path ++ [less]) f.id 0 (some greater) := by
  have hsides : Form.ref.sides.2 = [less] ++ [reference, greater] := rfl
  obtain ⟨hr', hd⟩ := h.advance hr hsides
  exact h.predicts hr' (hf ▸ hd) (h.leads_symbol .greater [] ahead)

theorem leads_or_operator (m : Mark)
    (hs : s ∈ m.symbol :: operators.map fun o => (Mark.op o).symbol) :
    Leads g.analysis.symbols g.analysis.rules s [m.symbol] ahead ∨
      ∃ o : Operator, s = (Mark.op o).symbol := by
  rcases List.mem_cons.mp hs with rfl | hs
  · exact Or.inl (h.leads_symbol m [] ahead)
  · obtain ⟨o, -, rfl⟩ := List.mem_map.mp hs
    exact Or.inr ⟨o, rfl⟩

end Ruled

theorem closing_mem_follow (cs : List Context) : closing cs ∈ follow cs := List.mem_cons_self

/-- Behind every series of contexts an expression is awaited, with what can follow it there. -/
theorem Ruled.opens (h : Ruled p g) (cs : List Context) (hf : f.sides.1 = expr)
    (hs : s ∈ follow cs) : Reaches g.analysis (wordOf cs) f.id 0 (some s) := by
  induction cs generalizing f s with
  | nil =>
    have htop : Reaches g.analysis (wordOf []) 0 0 (some .finish) :=
      .start fun t ht => (Option.some.inj ht).symm
    have hd : (g.analysis.rhs 0).drop 0 = [expr] := by
      rw [h.rhs (by decide)]
      rfl
    refine h.predicts_expr htop hd hf ?_
    rcases List.mem_cons.mp hs with rfl | hs
    · exact Or.inl (Or.inr ⟨.nil, rfl⟩)
    · obtain ⟨o, -, rfl⟩ := List.mem_map.mp hs
      exact Or.inr ⟨o, rfl⟩
  | cons c cs ih =>
    rw [wordOf_cons]
    cases c with
    | operator o lhs t =>
      have hsides : o.form.sides.2 = [expr, (Mark.op o).symbol] ++ [expr] := by cases o <;> rfl
      have ho := ih (f := o.form) (by cases o <;> rfl) hs
      obtain ⟨hr, hd⟩ := h.advance ho hsides
      exact h.predicts_expr hr hd hf (Or.inl (Or.inr ⟨.nil, rfl⟩))
    | minus t =>
      have hsides : Form.neg.sides.2 = [minus] ++ [expr] := rfl
      obtain ⟨hr, hd⟩ := h.advance (ih (f := .neg) rfl hs) hsides
      exact h.predicts_expr hr hd hf (Or.inl (Or.inr ⟨.nil, rfl⟩))
    | paren t =>
      have hsides : Form.paren.sides.2 = [lparen] ++ [expr, rparen] := rfl
      obtain ⟨hr, hd⟩ := h.advance (ih (f := .paren) rfl (closing_mem_follow cs)) hsides
      exact h.predicts_expr hr hd hf (h.leads_or_operator .rparen hs)
    | call t t₁ =>
      have hsides : Form.call.sides.2 = [ident, lparen] ++ [expr, rparen] := rfl
      obtain ⟨hr, hd⟩ := h.advance (ih (f := .call) rfl (closing_mem_follow cs)) hsides
      exact h.predicts_expr hr hd hf (h.leads_or_operator .rparen hs)
    | time t t₁ t₂ t₃ t₄ =>
      have hsides : Form.refTime.sides.2 = [ident, colon, ident, lbracket] ++ [expr, rbracket] := rfl
      have href := h.opens_reference (f := .refTime)
        (ih (f := .ref) rfl (closing_mem_follow cs)) rfl
      obtain ⟨hr, hd⟩ := h.advance href hsides
      rw [List.append_assoc] at hr
      exact h.predicts_expr hr hd hf (h.leads_or_operator .rbracket hs)

/-! Operators behind an expression. -/

theorem Ruled.canShift_operator (h : Ruled p g) (cs : List Context) (e : Expr) (o : Operator) :
    CanShift g.analysis (Stack.path ⟨cs, .expr e⟩) (Mark.op o).symbol := by
  have hsides : o.form.sides.2 = [expr] ++ (Mark.op o).symbol :: [expr] := by cases o <;> rfl
  exact h.canShift (h.opens cs (f := o.form) (by cases o <;> rfl) (closing_mem_follow cs)) hsides

/-- Where a level is pending, the rule that it belongs to is complete behind the expression. -/
theorem Ruled.exists_canReduce (h : Ruled p g) {level : Int}
    (hpending : Context.pending p cs = some level) (e : Expr) (hs : s ∈ follow cs) :
    ∃ f : Form, f.level? p = some level ∧ CanReduce g.analysis (Stack.path ⟨cs, .expr e⟩) f.id s := by
  rcases cs with _ | ⟨⟨o, lhs, t⟩ | t | _ | _ | _, cs⟩
  case cons.operator =>
    have hpath : Stack.path ⟨.operator o lhs t :: cs, .expr e⟩ = wordOf cs ++ o.form.sides.2 := by
      rw [Stack.path, wordOf_cons, List.append_assoc]
      cases o <;> rfl
    rw [hpath]
    refine ⟨o.form, Eq.trans ?_ hpending, h.canReduce (h.opens cs (by cases o <;> rfl) hs)⟩
    cases o <;> rfl
  case cons.minus =>
    have hpath : Stack.path ⟨.minus t :: cs, .expr e⟩ = wordOf cs ++ Form.neg.sides.2 := by
      rw [Stack.path, wordOf_cons, List.append_assoc]
      rfl
    rw [hpath]
    exact ⟨.neg, hpending, h.canReduce (h.opens cs rfl hs)⟩
  all_goals cases hpending

/-! What can stand behind a stack. -/

def Stack.nexts : Stack → List SymbolId
  | ⟨_, .none⟩ => [minus, lparen, less, int, float, ident]
  | ⟨cs, .ident _⟩ => lparen :: follow cs
  | ⟨_, .less _⟩ => [ident]
  | ⟨_, .name _ _⟩ => [colon, greater]
  | ⟨_, .colon _ _ _⟩ => [ident]
  | ⟨_, .spec _ _ _ _⟩ => [lbracket, greater]
  | ⟨_, .timed _ _ _ _ _ _ _⟩ => [greater]
  | ⟨_, .reference _ _⟩ => [greater]
  | ⟨cs, _⟩ => follow cs

theorem Ruled.canAct_operand (h : Ruled p g) (cs : List Context) (hf : f.sides.1 = expr)
    (hs : f.sides.2.head? = some s) : CanShift g.analysis (wordOf cs) s := by
  obtain ⟨rest, hrest⟩ := List.head?_eq_some_iff.mp hs
  have hsides : f.sides.2 = [] ++ s :: rest := hrest
  have hshift := h.canShift (h.opens cs hf (closing_mem_follow cs)) hsides
  rwa [List.append_nil] at hshift

theorem Ruled.canAct_closing (h : Ruled p g) (cs : List Context) (e : Expr) :
    CanShift g.analysis (Stack.path ⟨cs, .expr e⟩) (closing cs) ∨
      ∃ i, CanReduce g.analysis (Stack.path ⟨cs, .expr e⟩) i (closing cs) := by
  have hpath : ∀ c cs, Stack.path ⟨c :: cs, .expr e⟩ = wordOf cs ++ (c.word ++ [expr]) := by
    intro c cs
    rw [Stack.path, wordOf_cons, List.append_assoc]
    rfl
  rcases cs with _ | ⟨⟨o, lhs, t⟩ | t | t | ⟨t, t₁⟩ | ⟨t, t₁, t₂, t₃, t₄⟩, cs⟩
  case nil =>
    have htop : Reaches g.analysis [] 0 0 (some .finish) := .start fun t ht => (Option.some.inj ht).symm
    have hdot : (g.analysis.rhs 0)[0]? = some expr := by
      rw [h.rhs (by decide)]
      rfl
    exact Or.inr ⟨0, topRule, h.top, htop.shift hdot⟩
  case cons.operator =>
    have hpending : Context.pending p (.operator o lhs t :: cs) = some o.level := rfl
    obtain ⟨f, -, hr⟩ := h.exists_canReduce hpending e (closing_mem_follow _)
    exact Or.inr ⟨f.id, hr⟩
  case cons.minus =>
    have hpending : Context.pending p (.minus t :: cs) = some p := rfl
    obtain ⟨f, -, hr⟩ := h.exists_canReduce hpending e (closing_mem_follow _)
    exact Or.inr ⟨f.id, hr⟩
  case cons.paren =>
    have hsides : Form.paren.sides.2 = [lparen, expr] ++ [rparen] := rfl
    rw [hpath]
    exact Or.inl (h.canShift (h.opens cs rfl (closing_mem_follow cs)) hsides)
  case cons.call =>
    have hsides : Form.call.sides.2 = [ident, lparen, expr] ++ [rparen] := rfl
    rw [hpath]
    exact Or.inl (h.canShift (h.opens cs rfl (closing_mem_follow cs)) hsides)
  case cons.time =>
    have hsides : Form.refTime.sides.2 = [ident, colon, ident, lbracket, expr] ++ [rbracket] := rfl
    have href := h.opens_reference (f := .refTime) (h.opens cs rfl (closing_mem_follow cs)) rfl
    have hshift := h.canShift href hsides
    rw [List.append_assoc] at hshift
    rw [hpath]
    exact Or.inl hshift

/-- The grammar allows all that can stand behind a stack. -/
theorem Ruled.canAct (h : Ruled p g) (hs : s ∈ st.nexts) :
    CanShift g.analysis st.path s ∨ ∃ i, CanReduce g.analysis st.path i s := by
  obtain ⟨cs, top⟩ := st
  have hopens : ∀ f : Form, f.sides.1 = expr →
      Reaches g.analysis (wordOf cs) f.id 0 (some (closing cs)) :=
    fun f hf => h.opens cs hf (closing_mem_follow cs)
  have hreference : ∀ f : Form, f.sides.1 = reference →
      Reaches g.analysis (wordOf cs ++ [less]) f.id 0 (some greater) :=
    fun f hf => h.opens_reference (hopens .ref rfl) hf
  have hpath : ∀ (top : Top) (ids : List SymbolId), top.word = less :: ids →
      Stack.path ⟨cs, top⟩ = wordOf cs ++ [less] ++ ids := by
    intro top ids hword
    rw [Stack.path, hword, List.append_assoc, List.singleton_append]
  cases top with
  | none =>
    have hforms : ∀ s ∈ [minus, lparen, less, int, float, ident], ∃ f ∈ Form.all,
        f.sides.1 = expr ∧ f.sides.2.head? = some s := by decide
    obtain ⟨f, -, hf, hhead⟩ := hforms s hs
    have hshift := h.canAct_operand cs hf hhead
    exact Or.inl (by rwa [Stack.path, show Top.none.word = [] from rfl, List.append_nil])
  | int t => exact Or.inr ⟨_, h.canReduce (h.opens cs (f := .int) rfl hs)⟩
  | float t => exact Or.inr ⟨_, h.canReduce (h.opens cs (f := .float) rfl hs)⟩
  | closed t e t₁ => exact Or.inr ⟨_, h.canReduce (h.opens cs (f := .paren) rfl hs)⟩
  | called t t₁ e t₂ => exact Or.inr ⟨_, h.canReduce (h.opens cs (f := .call) rfl hs)⟩
  | referenced t e t₁ => exact Or.inr ⟨_, h.canReduce (h.opens cs (f := .ref) rfl hs)⟩
  | ident t =>
    rcases List.mem_cons.mp hs with rfl | hs
    · exact Or.inl (h.canShift (hopens .call rfl)
        (show Form.call.sides.2 = [ident] ++ lparen :: [expr, rparen] from rfl))
    · exact Or.inr ⟨_, h.canReduce (h.opens cs (f := .var) rfl hs)⟩
  | less t =>
    rw [List.mem_singleton.mp hs]
    have hshift := h.canShift (hreference .refName rfl) (show _ = [] ++ ident :: [] from rfl)
    rw [List.append_nil] at hshift
    exact Or.inl hshift
  | name t t₁ =>
    rw [hpath (.name t t₁) [ident] rfl]
    rcases List.mem_cons.mp hs with rfl | hs
    · exact Or.inl (h.canShift (hreference .refSpec rfl) (show _ = [ident] ++ colon :: [ident] from rfl))
    · rw [List.mem_singleton.mp hs]
      exact Or.inr ⟨_, h.canReduce (hreference .refName rfl)⟩
  | colon t t₁ t₂ =>
    rw [List.mem_singleton.mp hs, hpath (.colon t t₁ t₂) [ident, colon] rfl]
    exact Or.inl (h.canShift (hreference .refSpec rfl) (show _ = [ident, colon] ++ ident :: [] from rfl))
  | spec t t₁ t₂ t₃ =>
    rw [hpath (.spec t t₁ t₂ t₃) [ident, colon, ident] rfl]
    rcases List.mem_cons.mp hs with rfl | hs
    · exact Or.inl (h.canShift (hreference .refTime rfl)
        (show _ = [ident, colon, ident] ++ lbracket :: [expr, rbracket] from rfl))
    · rw [List.mem_singleton.mp hs]
      exact Or.inr ⟨_, h.canReduce (hreference .refSpec rfl)⟩
  | timed t t₁ t₂ t₃ t₄ e t₅ =>
    rw [List.mem_singleton.mp hs, hpath (.timed t t₁ t₂ t₃ t₄ e t₅)
      [ident, colon, ident, lbracket, expr, rbracket] rfl]
    exact Or.inr ⟨_, h.canReduce (hreference .refTime rfl)⟩
  | reference t e =>
    rw [List.mem_singleton.mp hs]
    exact Or.inl (h.canShift (hopens .ref rfl) (show _ = [less, reference] ++ greater :: [] from rfl))
  | expr e =>
    rcases List.mem_cons.mp hs with rfl | hs
    · exact h.canAct_closing cs e
    · obtain ⟨o, -, rfl⟩ := List.mem_map.mp hs
      exact Or.inl (h.canShift_operator cs e o)

/-! What the reader can go on with. -/

theorem exists_aheadOf_start (hread : start p cs ts ≠ none) :
    ∃ s ∈ [minus, lparen, less, int, float, ident], aheadOf ts = some s := by
  cases ts with
  | nil => exact absurd (by simp [start, readOperand]) hread
  | cons t ts =>
    have hoperand : readOperand p (t :: ts) ≠ none := fun hnone => hread (by rw [start, hnone]; rfl)
    cases hm : mark? t with
    | none => exact absurd (by rw [readOperand, hm]) hoperand
    | some m =>
      refine ⟨m.symbol, ?_, by rw [aheadOf, hm, Option.map_some]⟩
      cases m with
      | op o =>
        cases o with
        | sub => decide
        | _ => exact absurd (by rw [readOperand, hm]) hoperand
      | lparen | less | int | float | ident => decide
      | _ => exact absurd (by rw [readOperand, hm]) hoperand

theorem aheadOf_of_shut {t : Token} {e : Expr} (hread : shut p cs t e ts ≠ none) :
    aheadOf ts = some greater :=
  exists_take_of_bind (m := .greater) hread

theorem aheadOf_of_less (t : Of .less) (hread : start p cs (t.1 :: ts) ≠ none) :
    aheadOf ts = some ident := by
  cases htake : take .ident ts with
  | some r => exact aheadOf_of_take htake
  | none => exact absurd (by simp [start, readOperand, t.2, readReference, htake]) hread

theorem aheadOf_of_colon (t : Of .less) (t₁ : Of .ident) (t₂ : Of .colon)
    (hread : start p cs (t.1 :: t₁.1 :: t₂.1 :: ts) ≠ none) : aheadOf ts = some ident := by
  cases htake : take .ident ts with
  | some r => exact aheadOf_of_take htake
  | none =>
    refine absurd ?_ hread
    simp only [start, readOperand, t.2, readReference, take_of, htake, Option.bind_eq_bind,
      Option.bind_some]
    cases identOf? t₁.1 <;> rfl

theorem exists_of_bind {α β : Type} {x : Option α} {k : α → Option β} (h : x.bind k ≠ none) :
    ∃ a, k a ≠ none := by
  cases x with
  | none => exact absurd rfl h
  | some a => exact ⟨a, h⟩

/-- Where something else stands behind a stack, nothing is read. -/
theorem Stack.exists_mem_nexts (hread : st.read p ts ≠ none) : ∃ s ∈ st.nexts, aheadOf ts = some s := by
  obtain ⟨cs, top⟩ := st
  cases top with
  | none => exact exists_aheadOf_start hread
  | int t =>
    obtain ⟨e, he⟩ := exists_of_bind ((start_int t).symm.trans_ne hread)
    exact exists_mem_follow he
  | float t =>
    obtain ⟨e, he⟩ := exists_of_bind ((start_float t).symm.trans_ne hread)
    exact exists_mem_follow he
  | ident t =>
    cases htake : take .lparen ts with
    | some r => exact ⟨_, List.mem_cons_self, aheadOf_of_take htake⟩
    | none =>
      obtain ⟨e, he⟩ := exists_of_bind ((start_ident t htake).symm.trans_ne hread)
      obtain ⟨s, hs, hahead⟩ := exists_mem_follow he
      exact ⟨s, List.mem_cons_of_mem _ hs, hahead⟩
  | closed t e t₁ => exact exists_mem_follow ((resume_paren t₁).symm.trans_ne hread)
  | called t t₁ e t₂ =>
    obtain ⟨e, he⟩ := exists_of_bind ((resume_call t₂).symm.trans_ne hread)
    exact exists_mem_follow he
  | less t => exact ⟨_, List.mem_cons_self, aheadOf_of_less t hread⟩
  | name t t₁ =>
    cases htake : take .colon ts with
    | some r => exact ⟨_, List.mem_cons_self, aheadOf_of_take htake⟩
    | none =>
      obtain ⟨e, he⟩ := exists_of_bind ((start_name t t₁ htake).symm.trans_ne hread)
      exact ⟨_, List.mem_cons_of_mem _ List.mem_cons_self, aheadOf_of_shut he⟩
  | colon t t₁ t₂ => exact ⟨_, List.mem_cons_self, aheadOf_of_colon t t₁ t₂ hread⟩
  | spec t t₁ t₂ t₃ =>
    cases htake : take .lbracket ts with
    | some r => exact ⟨_, List.mem_cons_self, aheadOf_of_take htake⟩
    | none =>
      obtain ⟨e, he⟩ := exists_of_bind ((start_spec t t₁ t₂ t₃ htake).symm.trans_ne hread)
      exact ⟨_, List.mem_cons_of_mem _ List.mem_cons_self, aheadOf_of_shut he⟩
  | timed t t₁ t₂ t₃ t₄ e t₅ =>
    obtain ⟨e, he⟩ := exists_of_bind ((resume_time t₅).symm.trans_ne hread)
    exact ⟨_, List.mem_cons_self, aheadOf_of_shut he⟩
  | reference t e => exact ⟨_, List.mem_cons_self, aheadOf_of_shut hread⟩
  | referenced t e t₁ => exact exists_mem_follow ((shut_of t.1 e t₁ cs ts).symm.trans_ne hread)
  | expr e => exact exists_mem_follow hread

end CanonicalLR.Calculator
