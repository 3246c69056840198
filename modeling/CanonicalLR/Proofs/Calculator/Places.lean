import CanonicalLR.Proofs.Calculator.Climbing
import CanonicalLR.Proofs.Grammar.Resolved

/-! Where a parser of the calculator grammar can be, as far as rules and dots go. A place is found
from the symbols on the stack alone; the items there say which symbols can follow, and which rule is
complete. Operators are the only choices that the items leave, and levels decide them all. -/

namespace CanonicalLR.Calculator

open Vocabulary Grammar

variable {p : Int} {path : List SymbolId} {s : SymbolId} {i d : Nat} {ahead : Option SymbolId}
  {rule : Rule}

/-! The rules by their places in the grammar. -/

def Operator.form : Operator → Form
  | add => .add
  | sub => .sub
  | mul => .mul
  | div => .div
  | pow => .pow

def Form.placed (p : Int) (f : Form) : Rule := { f.rule p with index := f.id }

def topRule : Rule := { id := 0, lhs := .start, rhs := [expr] }

def sidesOf (i : Nat) : SymbolId × List SymbolId :=
  match Form.ofId? i with
  | some f => f.sides
  | none => (.start, [expr])

theorem sidesOf_id (f : Form) : sidesOf f.id = f.sides := by
  rw [sidesOf, Form.ofId?_id]

/-- A grammar with the symbols and the rules of the calculator. -/
structure Ruled (p : Int) (g : Grammar) : Prop where
  symbols : g.symbols = registry
  rules : g.rules = topRule :: Form.all.map (Form.placed p)

namespace Ruled

variable {g : Grammar} (h : Ruled p g)
include h

theorem top : g.rules[0]? = some topRule := by
  rw [h.rules]
  rfl

theorem placed (f : Form) : g.rules[f.id]? = some (f.placed p) := by
  rw [h.rules]
  cases f <;> rfl

theorem cases (hrule : g.rules[i]? = some rule) :
    (i = 0 ∧ rule = topRule) ∨ ∃ f : Form, i = f.id ∧ rule = f.placed p := by
  rw [h.rules] at hrule
  cases i with
  | zero => exact Or.inl ⟨rfl, (Option.some.inj hrule).symm⟩
  | succ i =>
    rw [List.getElem?_cons_succ, List.getElem?_map] at hrule
    obtain ⟨f, hf, rfl⟩ := Option.map_eq_some_iff.mp hrule
    have hids : Form.all.map Form.id = List.range' 1 15 := rfl
    have hid : (Form.all.map Form.id)[i]? = some f.id := by rw [List.getElem?_map, hf, Option.map_some]
    rw [hids] at hid
    obtain ⟨hlt, he⟩ := List.getElem?_eq_some_iff.mp hid
    rw [List.getElem_range'] at he
    exact Or.inr ⟨f, by omega, rfl⟩

theorem sides (hrule : g.rules[i]? = some rule) : i < 16 ∧ sidesOf i = (rule.lhs, rule.rhs) := by
  rcases h.cases hrule with ⟨rfl, rfl⟩ | ⟨f, rfl, rfl⟩
  · exact ⟨by decide, rfl⟩
  · exact ⟨by cases f <;> decide, sidesOf_id f⟩

theorem rhs (hi : i < 16) : g.analysis.rhs i = (sidesOf i).2 := by
  have hlt : i < g.analysis.rules.length := by
    rw [show g.analysis.rules = _ from h.rules]
    exact hi
  have hrule := List.getElem?_eq_getElem hlt
  rw [Analysis.rhs_eq hrule, (h.sides hrule).2]

theorem rhs_id (f : Form) : g.analysis.rhs f.id = f.sides.2 :=
  Analysis.rhs_eq (a := g.analysis) (h.placed f)

end Ruled

theorem rawGrammar_ruled (p : Int) : Ruled p (rawGrammar p) where
  symbols := by simp only [rawGrammar, declare_keeps, setStart, reset, addRules_keeps, Grammar.new]
  rules := by
    simp only [rawGrammar, declare_keeps, setStart, reset, Form.all, List.map, List.foldl, addRule]
    simp only [Grammar.new, List.cons_append, List.nil_append, List.length_cons, List.length_nil,
      List.modify_zero_cons]
    rfl

/-! The grammar is well-formed. -/

theorem registry_built : registry.Built := by
  have hnew : Registry.Built ⟨Registry.new.symbols ++ registry.symbols.drop 2⟩ :=
    Registry.built_of_nodup (by decide +kernel) (by decide +kernel) (by decide +kernel)
  exact hnew

theorem registered_of_mem {f : Form} (h : s ∈ f.sides.1 :: f.sides.2) : registry.Registered s := by
  have hsize : registry.size = 19 := by decide +kernel
  have hall : (f.sides.1 :: f.sides.2).all fun s => s.val < 19 := by cases f <;> decide
  have hlt : s.val < 19 := by simpa using List.all_eq_true.mp hall s h
  rwa [Registry.Registered, hsize]

theorem isTerminal_lhs (f : Form) : registry.isTerminal f.sides.1 = false := by
  have hexpr : registry.isTerminal expr = false := by decide +kernel
  have hreference : registry.isTerminal reference = false := by decide +kernel
  have hlhs : f.sides.1 = expr ∨ f.sides.1 = reference := by cases f <;> decide
  rcases hlhs with h | h <;> rw [h] <;> assumption

theorem rawGrammar_built (p : Int) : (rawGrammar p).Built := by
  have hrules : ((Form.all.map (Form.rule p)).foldl Grammar.addRule (.new registry)).Built := by
    refine (Built.new registry_built).addRules fun rule hrule s hs => ?_
    obtain ⟨f, -, rfl⟩ := List.mem_map.mp hrule
    exact registered_of_mem (f := f) (List.mem_cons.mpr hs)
  have hexpr : ((Form.all.map (Form.rule p)).foldl Grammar.addRule (.new registry)).symbols.Registered
      expr := by
    rw [(addRules_keeps _ _).1]
    exact registered_of_mem (f := .add) List.mem_cons_self
  exact (((hrules.setStart hexpr).declare _ _ _).declare _ _ _).declare _ _ _

theorem rawGrammar_valid (p : Int) : (rawGrammar p).Valid expr where
  start := by simp only [rawGrammar, declare_keeps, setStart, reset]
  nonterminal := by
    rw [(rawGrammar_ruled p).symbols]
    exact isTerminal_lhs .add
  lhs := by
    intro rule hrule
    rw [clients, (rawGrammar_ruled p).rules, List.drop_succ_cons, List.drop_zero] at hrule
    obtain ⟨f, -, rfl⟩ := List.mem_map.mp hrule
    rw [(rawGrammar_ruled p).symbols]
    exact isTerminal_lhs f

/-! Places. -/

/-- What an operand can stand behind; `none` at the very beginning. -/
inductive Waiting where
  | operator (o : Operator)
  | minus
  | paren
  | call
  | time
deriving DecidableEq

inductive Place where
  | operand (w : Option Waiting)
  | expr (w : Option Waiting)
  | int
  | float
  | ident
  | closed
  | called
  | less
  | name
  | colon
  | spec
  | timed
  | reference
  | referenced
  | nowhere
deriving DecidableEq

namespace Waiting

def all : List (Option Waiting) :=
  none :: [minus, paren, call, time].map some ++ operators.map fun o => some (operator o)

theorem mem_all (w : Option Waiting) : w ∈ all := by
  rcases w with _ | ⟨⟨⟩⟩ | _ | _ | _ | _ <;> decide

/-- The item that waits for the operand. -/
def item : Option Waiting → Nat × Nat
  | none => (0, 0)
  | some (operator o) => (o.form.id, 2)
  | some minus => (Form.neg.id, 1)
  | some paren => (Form.paren.id, 1)
  | some call => (Form.call.id, 2)
  | some time => (Form.refTime.id, 4)

end Waiting

namespace Place

def all : List Place :=
  Waiting.all.map operand ++ Waiting.all.map expr
    ++ [int, float, ident, closed, called, less, name, colon, spec, timed, reference, referenced,
      nowhere]

theorem mem_all (place : Place) : place ∈ all := by
  cases place with
  | operand w =>
    exact List.mem_append_left _ (List.mem_append_left _ (List.mem_map_of_mem (Waiting.mem_all w)))
  | expr w =>
    exact List.mem_append_left _ (List.mem_append_right _ (List.mem_map_of_mem (Waiting.mem_all w)))
  | _ => exact List.mem_append_right _ (by decide)

/-- The forms that an operand starts with. -/
def predicted : List (Nat × Nat) :=
  (Form.all.filter fun f => f.sides.1 = Vocabulary.expr).map fun f => (f.id, 0)

def items : Place → List (Nat × Nat)
  | operand w => Waiting.item w :: predicted
  | expr w =>
    ((Waiting.item w).1, (Waiting.item w).2 + 1) :: operators.map fun o => (o.form.id, 1)
  | int => [(Form.int.id, 1)]
  | float => [(Form.float.id, 1)]
  | ident => [(Form.var.id, 1), (Form.call.id, 1)]
  | closed => [(Form.paren.id, 3)]
  | called => [(Form.call.id, 4)]
  | less => [(Form.ref.id, 1), (Form.refName.id, 0), (Form.refSpec.id, 0), (Form.refTime.id, 0)]
  | name => [(Form.refName.id, 1), (Form.refSpec.id, 1), (Form.refTime.id, 1)]
  | colon => [(Form.refSpec.id, 2), (Form.refTime.id, 2)]
  | spec => [(Form.refSpec.id, 3), (Form.refTime.id, 3)]
  | timed => [(Form.refTime.id, 6)]
  | reference => [(Form.ref.id, 2)]
  | referenced => [(Form.ref.id, 3)]
  | nowhere => []

def goto : Place → SymbolId → Place
  | operand w, s =>
    if s = Vocabulary.expr then expr w
    else if s = Vocabulary.minus then operand (some .minus)
    else if s = lparen then operand (some .paren)
    else if s = Vocabulary.less then less
    else if s = Vocabulary.int then int
    else if s = Vocabulary.float then float
    else if s = Vocabulary.ident then ident
    else nowhere
  | expr w, s =>
    match operators.find? (fun o => (Mark.op o).symbol = s), w with
    | some o, _ => operand (some (.operator o))
    | none, some .paren => if s = rparen then closed else nowhere
    | none, some .call => if s = rparen then called else nowhere
    | none, some .time => if s = rbracket then timed else nowhere
    | none, _ => nowhere
  | ident, s => if s = lparen then operand (some .call) else nowhere
  | less, s =>
    if s = Vocabulary.ident then name
    else if s = Vocabulary.reference then reference
    else nowhere
  | name, s => if s = Vocabulary.colon then colon else nowhere
  | colon, s => if s = Vocabulary.ident then spec else nowhere
  | spec, s => if s = lbracket then operand (some .time) else nowhere
  | reference, s => if s = greater then referenced else nowhere
  | _, _ => nowhere

/-- The place that a sequence of symbols leads to. -/
def after (path : List SymbolId) : Place := path.foldl goto (operand none)

theorem after_append_singleton (path : List SymbolId) (s : SymbolId) :
    after (path ++ [s]) = (after path).goto s := by
  simp [after]

end Place

/-- What can stand behind a rule, wherever it is used. -/
def mayFollow (i : Nat) : List SymbolId :=
  if i = 0 then [.finish]
  else if (sidesOf i).1 = expr then
    [.finish, rparen, rbracket] ++ operators.map fun o => (Mark.op o).symbol
  else [greater]

/-- The items of a place go on to those of the next one, and those of the rules that an item asks
for are there, with what follows them. -/
def Place.isSound (place : Place) : Bool :=
  place.items.all fun x =>
    match (sidesOf x.1).2[x.2]? with
    | none => true
    | some s =>
      (place.goto s).items.contains (x.1, x.2 + 1) &&
        (List.range 16).all fun j =>
          (sidesOf j).1 != s ||
            place.items.contains (j, 0) &&
              match (sidesOf x.1).2.drop (x.2 + 1) with
              | [] => (mayFollow x.1).all (mayFollow j).contains
              | t :: _ => registry.isTerminal t && (mayFollow j).contains t

theorem Place.isSound_all (place : Place) : place.isSound = true := by
  have hall : all.all isSound = true := by decide +kernel
  exact List.all_eq_true.mp hall place place.mem_all

namespace Place

variable {place : Place}

theorem goto_of_mem (hmem : (i, d) ∈ place.items) (hs : (sidesOf i).2[d]? = some s) :
    (i, d + 1) ∈ (place.goto s).items := by
  have hsound := List.all_eq_true.mp place.isSound_all _ hmem
  simp only [hs, Bool.and_eq_true, List.contains_iff_mem] at hsound
  exact hsound.1

theorem predicted_of_mem {j : Nat} (hmem : (i, d) ∈ place.items) (hj : j < 16)
    (hs : (sidesOf i).2[d]? = some (sidesOf j).1) : (j, 0) ∈ place.items ∧
      (((sidesOf i).2.drop (d + 1) = [] ∧ ∀ t ∈ mayFollow i, t ∈ mayFollow j) ∨
        ∃ t rest, (sidesOf i).2.drop (d + 1) = t :: rest ∧ registry.isTerminal t = true ∧
          t ∈ mayFollow j) := by
  have hsound := List.all_eq_true.mp place.isSound_all _ hmem
  simp only [hs, Bool.and_eq_true] at hsound
  have hrule := List.all_eq_true.mp hsound.2 j (List.mem_range.mpr hj)
  simp only [bne_self_eq_false, Bool.false_or, Bool.and_eq_true, List.contains_iff_mem] at hrule
  refine ⟨hrule.1, ?_⟩
  cases hrest : (sidesOf i).2.drop (d + 1) with
  | nil =>
    rw [hrest] at hrule
    exact Or.inl ⟨rfl, by simpa using hrule.2⟩
  | cons t rest =>
    rw [hrest] at hrule
    exact Or.inr ⟨t, rest, rfl, by simpa using hrule.2⟩

end Place

namespace Ruled

variable {g : Grammar} (h : Ruled p g)
include h

theorem isTerminal_lhs (hmem : rule ∈ g.rules) : registry.isTerminal rule.lhs = false := by
  rw [h.rules] at hmem
  rcases List.mem_cons.mp hmem with rfl | hmem
  · exact registry_built.sound.isTerminal_start
  · obtain ⟨f, -, rfl⟩ := List.mem_map.mp hmem
    exact Calculator.isTerminal_lhs f

theorem mem_items (hr : Reaches g.analysis path i d ahead) :
    i < 16 ∧ (i, d) ∈ (Place.after path).items ∧ ∀ t, ahead = some t → t ∈ mayFollow i := by
  induction hr with
  | start hf =>
    refine ⟨by decide, by decide, fun t ht => ?_⟩
    rw [hf t ht]
    decide
  | shift _ hs ih =>
    obtain ⟨hi, hmem, hfollow⟩ := ih
    rw [h.rhs hi] at hs
    rw [Place.after_append_singleton]
    exact ⟨hi, Place.goto_of_mem hmem hs, hfollow⟩
  | @predict path i d j ahead ahead' _ hp ih =>
    obtain ⟨hi, hmem, hfollow⟩ := ih
    obtain ⟨rule, hrule, hdot, hleads⟩ := hp
    obtain ⟨hj, hsides⟩ := h.sides hrule
    have hlhs : rule.lhs = (sidesOf j).1 := by rw [hsides]
    rw [h.rhs hi, hlhs] at hdot
    obtain ⟨hzero, hnext⟩ := Place.predicted_of_mem hmem hj hdot
    refine ⟨hj, hzero, fun t ht => ?_⟩
    have hl := hleads t ht
    rw [h.rhs hi, show g.analysis.symbols = registry from h.symbols] at hl
    rcases hnext with ⟨hrest, hsub⟩ | ⟨t', rest, hrest, hterminal, hmem'⟩
    · rw [hrest] at hl
      exact hsub t (hfollow t (leads_nil hl))
    · rw [hrest] at hl
      rwa [leads_terminal (fun rule hr => h.isTerminal_lhs hr) hterminal hl]

theorem mem_items_of_canReduce (hr : CanReduce g.analysis path i s) :
    (i, (sidesOf i).2.length) ∈ (Place.after path).items ∧ s ∈ mayFollow i := by
  obtain ⟨rule, hrule, hr⟩ := hr
  obtain ⟨-, hmem, hfollow⟩ := h.mem_items hr
  rw [(h.sides hrule).2]
  exact ⟨hmem, hfollow s rfl⟩

theorem goto_of_canShift (hs : CanShift g.analysis path s) :
    (Place.after path).goto s ≠ .nowhere := by
  obtain ⟨i, d, ahead, hr, hs⟩ := hs
  obtain ⟨hi, hmem, -⟩ := h.mem_items hr
  rw [h.rhs hi] at hs
  intro hnowhere
  have hnext := Place.goto_of_mem hmem hs
  rw [hnowhere] at hnext
  cases hnext

end Ruled

/-! Shifts against reductions. -/

/-- The level of a form that ends with an operand. -/
def Form.level? (p : Int) : Form → Option Int
  | .add => some Operator.add.level
  | .sub => some Operator.sub.level
  | .mul => some Operator.mul.level
  | .div => some Operator.div.level
  | .pow => some Operator.pow.level
  | .neg => some p
  | _ => none

def openForms : List Form := .neg :: operators.map Operator.form

theorem exists_level {f : Form} (h : f ∈ openForms) (p : Int) : ∃ level, f.level? p = some level := by
  simp only [openForms, operators, List.map, List.mem_cons, List.not_mem_nil, or_false] at h
  rcases h with rfl | rfl | rfl | rfl | rfl | rfl <;> exact ⟨_, rfl⟩

theorem precedence?_eq (p : Int) (o : Operator) :
    (rawGrammar p).precedence? (Mark.op o).symbol = some o.level := by
  cases o <;> rfl

theorem assoc?_eq (p : Int) (o : Operator) :
    (rawGrammar p).assoc? (Mark.op o).symbol = some (if o = .pow then .right else .left) := by
  cases o <;> rfl

theorem rulePrecedence?_eq {f : Form} {level : Int} (h : f.level? p = some level) :
    (rawGrammar p).rulePrecedence? (f.placed p) = some level := by
  have hlast : ∀ o : Operator, registry.lastTerminal? o.form.sides.2 = some (Mark.op o).symbol := by
    intro o
    cases o <;> decide +kernel
  have hop : ∀ o : Operator, (rawGrammar p).rulePrecedence? (o.form.placed p) = some o.level := by
    intro o
    have hprec : (o.form.placed p).prec = none := by cases o <;> rfl
    have hrhs : (o.form.placed p).rhs = o.form.sides.2 := rfl
    rw [rulePrecedence?, hprec, hrhs, (rawGrammar_ruled p).symbols, hlast, Option.none_or,
      Option.bind_some, precedence?_eq]
  cases f with
  | add => exact (hop .add).trans h
  | sub => exact (hop .sub).trans h
  | mul => exact (hop .mul).trans h
  | div => exact (hop .div).trans h
  | pow => exact (hop .pow).trans h
  | neg => exact h
  | _ => cases h

theorem verdict_eq {f : Form} {level : Int} (h : f.level? p = some level) (o : Operator) :
    (rawGrammar p).verdict (Mark.op o).symbol (f.placed p) =
      if o.extends (some level) then .shift else .reduce := by
  have hextends : o.extends (some level) ↔ level < o.level ∨ (o.level = level ∧ o = .pow) := Iff.rfl
  simp only [verdict, precedence?_eq, rulePrecedence?_eq h, assocVerdict, assoc?_eq, Bool.true_or,
    if_true, hextends]
  by_cases hless : level < o.level
  · simp [hless]
  · by_cases hmore : o.level < level
    · have hne : o.level ≠ level := by omega
      simp [hless, hmore, hne]
    · obtain rfl : o.level = level := by omega
      by_cases hpow : o = .pow <;> simp [hpow, Assoc.verdict]

/-- The rule that is complete at a place. -/
def Place.complete? (place : Place) : Option Nat :=
  (place.items.find? fun x => x.2 == (sidesOf x.1).2.length).map (·.1)

/-- No more than one rule is complete, and behind it only operators can be shifted. -/
def Place.isClear (place : Place) : Bool :=
  place.items.all fun x =>
    x.2 != (sidesOf x.1).2.length ||
      place.complete? == some x.1 && (mayFollow x.1).all fun s =>
        place.goto s == .nowhere ||
          (operators.any fun o => (Mark.op o).symbol == s) &&
            openForms.any fun f => f.id == x.1

theorem Place.isClear_all (place : Place) : place.isClear = true := by
  have hall : all.all isClear = true := by decide +kernel
  exact List.all_eq_true.mp hall place place.mem_all

namespace Ruled

variable {g : Grammar} (h : Ruled p g)
include h

theorem complete?_of_canReduce (hr : CanReduce g.analysis path i s) :
    (Place.after path).complete? = some i := by
  obtain ⟨hmem, -⟩ := h.mem_items_of_canReduce hr
  have hclear := List.all_eq_true.mp (Place.after path).isClear_all _ hmem
  simp only [bne_self_eq_false, Bool.false_or, Bool.and_eq_true, beq_iff_eq] at hclear
  exact hclear.1

/-- Where a shift and a reduction compete, an operator stands behind an operand. -/
theorem exists_operator (hs : CanShift g.analysis path s) (hr : CanReduce g.analysis path i s) :
    ∃ (o : Operator) (f : Form), s = (Mark.op o).symbol ∧ i = f.id ∧ f ∈ openForms := by
  obtain ⟨hmem, hfollow⟩ := h.mem_items_of_canReduce hr
  have hclear := List.all_eq_true.mp (Place.after path).isClear_all _ hmem
  simp only [bne_self_eq_false, Bool.false_or, Bool.and_eq_true, List.all_eq_true] at hclear
  have hchoice := hclear.2 s hfollow
  simp only [Bool.or_eq_true, beq_iff_eq, h.goto_of_canShift hs, false_or, Bool.and_eq_true,
    List.any_eq_true] at hchoice
  obtain ⟨⟨o, -, ho⟩, f, hf, hid⟩ := hchoice
  exact ⟨o, f, ho.symm, hid.symm, hf⟩

end Ruled

theorem rawGrammar_resolved (p : Int) : (rawGrammar p).Resolved where
  unrivalled := by
    intro path s i i' hi hi'
    have hcomplete := (rawGrammar_ruled p).complete?_of_canReduce hi
    rw [(rawGrammar_ruled p).complete?_of_canReduce hi'] at hcomplete
    exact (Option.some.inj hcomplete).symm
  decided := by
    intro path s i rule hs hr hrule
    obtain ⟨o, f, rfl, rfl, hf⟩ := (rawGrammar_ruled p).exists_operator hs hr
    rw [(rawGrammar_ruled p).placed, Option.some.injEq] at hrule
    obtain ⟨level, hlevel⟩ := exists_level hf p
    rw [← hrule, verdict_eq hlevel]
    split
    · exact Or.inl rfl
    · exact Or.inr rfl

/-- Whatever the level of the unary minus, configuring the grammar leaves no conflict. -/
theorem exists_grammar (p : Int) : ∃ g, grammar p = .ok g ∧ g.conflicts = [] ∧
    (rawGrammar p).configure = (.ok (), g) := by
  obtain ⟨g, hg, hconflicts⟩ :=
    (rawGrammar_resolved p).clear.configure (rawGrammar_built p) (rawGrammar_valid p)
  exact ⟨g, configured_eq hg, hconflicts, hg⟩

theorem ruled_of_configure {g : Grammar} (h : (rawGrammar p).configure = (.ok (), g)) :
    Ruled p g := by
  obtain ⟨-, hsymbols, hrules, -⟩ := configure_ok h
  exact ⟨hsymbols.trans (rawGrammar_ruled p).symbols, hrules.trans (rawGrammar_ruled p).rules⟩

end CanonicalLR.Calculator
