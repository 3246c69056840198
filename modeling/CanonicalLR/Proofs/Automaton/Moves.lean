import CanonicalLR.Proofs.Automaton.Reaches

/-! What the items allow a parser to do with a stack of symbols and a terminal ahead of it. The
moves that build a derivation tree are always among it. -/

namespace CanonicalLR

variable {a : Analysis} {path path' : List SymbolId} {s t : SymbolId}

def CanShift (a : Analysis) (path : List SymbolId) (s : SymbolId) : Prop :=
  ∃ i d ahead, Reaches a path i d ahead ∧ (a.rhs i)[d]? = some s

def CanReduce (a : Analysis) (path : List SymbolId) (i : Nat) (t : SymbolId) : Prop :=
  ∃ rule, a.rules[i]? = some rule ∧ Reaches a path i rule.rhs.length (some t)

inductive Reduces (a : Analysis) (t : SymbolId) (rule : Rule) :
    List SymbolId → List SymbolId → Prop where
  | pop {before : List SymbolId} {i : Nat} : i ≠ 0 → a.rules[i]? = some rule →
      Reaches a (before ++ rule.rhs) i rule.rhs.length (some t) →
      Reduces a t rule (before ++ rule.rhs) (before ++ [rule.lhs])

inductive Moves (a : Analysis) : List SymbolId → List SymbolId → List Move →
    List SymbolId → List SymbolId → Prop where
  | done {path input : List SymbolId} : Moves a path input [] path input
  | shift {path input path' input' : List SymbolId} {s : SymbolId} {moves : List Move} :
      CanShift a path s → Moves a (path ++ [s]) input moves path' input' →
      Moves a path (s :: input) (.shift s :: moves) path' input'
  | reduce {path next input path' input' : List SymbolId} {t : SymbolId} {rule : Rule}
      {moves : List Move} :
      Reduces a t rule path next → Moves a next (t :: input) moves path' input' →
      Moves a path (t :: input) (.reduce rule :: moves) path' input'

theorem Moves.append {path₁ path₂ path₃ input₁ input₂ input₃ : List SymbolId}
    {moves moves' : List Move} (h : Moves a path₁ input₁ moves path₂ input₂)
    (h' : Moves a path₂ input₂ moves' path₃ input₃) :
    Moves a path₁ input₁ (moves ++ moves') path₃ input₃ := by
  induction h with
  | done => exact h'
  | shift hs _ ih => exact .shift hs (ih h')
  | reduce hr _ ih => exact .reduce hr (ih h')

/-- The first rule stands alone for the symbol above the start symbol, and where that symbol
stands in a rule it derives no word. -/
structure Analysis.Topped (a : Analysis) : Prop where
  top : ∀ rule, a.rules[0]? = some rule → rule.lhs = .start
  above : ∀ rule ∈ a.rules, .start ∈ rule.rhs →
    ∀ trees word, ¬ Parses a.symbols a.rules trees [.start] word

theorem Analysis.Topped.ne_zero (htop : a.Topped) {i j : Nat} {rule : Rule}
    (hj : a.rules[j]? = some rule) (hmem : rule.lhs ∈ a.rhs i) {trees : List Tree}
    {below : List SymbolId} (h : Parses a.symbols a.rules trees rule.rhs below) : j ≠ 0 := by
  rintro rfl
  obtain ⟨outer, hi, hmem⟩ := Analysis.exists_rule_of_mem hmem
  rw [htop.top rule hj] at hmem
  have hparses := Parses.node (List.mem_of_getElem? hj) h .nil
  rw [htop.top rule hj] at hparses
  exact htop.above outer (List.mem_of_getElem? hi) hmem _ _ hparses

theorem Predicts.of_mem {rule : Rule} {i d : Nat} {ahead : Option SymbolId}
    {rest : List SymbolId} (hr : rule ∈ a.rules)
    (hd : (a.rhs i).drop d = rule.lhs :: rest) :
    ∃ j, a.rules[j]? = some rule ∧ ∀ ahead', (∀ t, ahead' = some t →
      Leads a.symbols a.rules t rest ahead) → Predicts a i d ahead j ahead' := by
  obtain ⟨j, hj⟩ := List.mem_iff_getElem?.mp hr
  refine ⟨j, hj, fun ahead' h => ⟨rule, hj, ?_, ?_⟩⟩
  · rw [← List.head?_drop, hd, List.head?_cons]
  · rwa [← List.tail_drop, hd, List.tail_cons]

theorem CanShift.of_drop {i d : Nat} {ahead : Option SymbolId} {rest : List SymbolId}
    (h : Reaches a path i d ahead) (hd : (a.rhs i).drop d = s :: rest) : CanShift a path s :=
  ⟨i, d, ahead, h, by rw [← List.head?_drop, hd, List.head?_cons]⟩

theorem Leads.of_parses {r : Registry} {rules : List Rule} {trees : List Tree}
    {roots word rest : List SymbolId} {u : SymbolId} {ahead : Option SymbolId}
    (h : Parses r rules trees roots word) (hl : Leads r rules t rest ahead)
    (hu : word.head?.or (some t) = some u) : Leads r rules u (roots ++ rest) ahead := by
  cases word with
  | nil =>
    obtain rfl := Option.some.inj hu
    exact hl.of_vanishes ⟨trees, h⟩
  | cons s word =>
    have hlead : Leads r rules u roots none := h.leads hu
    rcases hlead with hs | ⟨-, hn⟩
    · exact Or.inl (hs.append_right rest)
    · cases hn

/-- Where the roots of a forest stand behind the dot, the moves that build the forest push them,
if the terminal behind its word is one that can come next. -/
theorem Parses.moves (htop : a.Topped) {trees : List Tree}
    {roots word : List SymbolId} (h : Parses a.symbols a.rules trees roots word)
    {i d : Nat} {ahead : Option SymbolId} {rest input : List SymbolId}
    (hr : Reaches a path i d ahead) (hd : (a.rhs i).drop d = roots ++ rest)
    (hl : Leads a.symbols a.rules t rest ahead) :
    Moves a path (word ++ t :: input) (Tree.movesOf trees) (path ++ roots) (t :: input) := by
  induction h generalizing path i d ahead rest t input with
  | nil =>
    rw [List.append_nil]
    exact .done
  | @leaf s trees roots word hs _ ih =>
    have hshift : CanShift a path s := .of_drop hr hd
    have hcons : (a.rhs i).drop d = [s] ++ (roots ++ rest) := hd
    obtain ⟨hr', hd'⟩ := hr.advance hcons
    have hrest : Moves a _ (word ++ t :: input) _ _ _ := ih hr' hd' hl
    rw [List.append_assoc] at hrest
    exact .shift hshift hrest
  | @node rule children trees below roots word hrule hc hrest ihc ih =>
    obtain ⟨u, input', hu, hinput⟩ : ∃ u input', word.head?.or (some t) = some u ∧
        word ++ t :: input = u :: input' := by
      cases word with
      | nil => exact ⟨t, input, rfl, rfl⟩
      | cons s word => exact ⟨s, word ++ t :: input, rfl, rfl⟩
    obtain ⟨j, hj, hpredicts⟩ := Predicts.of_mem hrule hd
    -- the rule is predicted with the terminal that follows its part of the word
    have hstart : Reaches a path j 0 (some u) := hr.predict (hpredicts (some u)
      fun x hx => by cases hx; exact .of_parses hrest hl hu)
    have hd0 : (a.rhs j).drop 0 = rule.rhs ++ [] := by simp [Analysis.rhs_eq hj]
    have hbelow : Moves a path (below ++ u :: input') _ _ _ := ihc hstart hd0 (Or.inr ⟨.nil, rfl⟩)
    obtain ⟨hdone, -⟩ := hstart.advance hd0
    have hmem : rule.lhs ∈ a.rhs i := by
      apply List.mem_of_mem_drop
      rw [hd]
      exact List.mem_cons_self
    have hreduce : Reduces a u rule (path ++ rule.rhs) (path ++ [rule.lhs]) :=
      .pop (htop.ne_zero hj hmem hc) hj (by simpa using hdone)
    have hcons : (a.rhs i).drop d = [rule.lhs] ++ (roots ++ rest) := hd
    obtain ⟨hr', hd'⟩ := hr.advance hcons
    have htail : Moves a _ (word ++ t :: input) _ _ _ := ih hr' hd' hl
    rw [hinput] at htail
    have hall := hbelow.append (.reduce hreduce htail)
    simp only [Tree.movesOf, Tree.moves, List.append_assoc, List.cons_append,
      List.nil_append] at hall ⊢
    rwa [hinput]

end CanonicalLR
