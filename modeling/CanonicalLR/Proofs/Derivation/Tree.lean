import CanonicalLR.Rule
import Mathlib.Logic.Relation
import Mathlib.Tactic.Common

/-! Derivations and derivation trees. A sequence of symbols derives a word just when a forest of
trees stands between them, and a forest is known from the order in which a shift-reduce parser
builds it. -/

namespace CanonicalLR

inductive Rewrites (rules : List Rule) : List SymbolId → List SymbolId → Prop where
  | apply {rule : Rule} (before after : List SymbolId) : rule ∈ rules →
      Rewrites rules (before ++ rule.lhs :: after) (before ++ rule.rhs ++ after)

abbrev Derives (rules : List Rule) := Relation.ReflTransGen (Rewrites rules)

def AllTerminal (r : Registry) (ids : List SymbolId) : Prop := ∀ s ∈ ids, r.isTerminal s = true

/-- A rule is applied where only terminals follow. -/
inductive RightRewrites (r : Registry) (rules : List Rule) :
    List SymbolId → List SymbolId → Prop where
  | apply {rule : Rule} (before after : List SymbolId) : rule ∈ rules → AllTerminal r after →
      RightRewrites r rules (before ++ rule.lhs :: after) (before ++ rule.rhs ++ after)

abbrev RightDerives (r : Registry) (rules : List Rule) :=
  Relation.ReflTransGen (RightRewrites r rules)

inductive Tree where
  | leaf (s : SymbolId)
  | node (rule : Rule) (children : List Tree)

/-- The trees side by side derive a word from the symbols at their roots. -/
inductive Parses (r : Registry) (rules : List Rule) :
    List Tree → List SymbolId → List SymbolId → Prop where
  | nil : Parses r rules [] [] []
  | leaf {s : SymbolId} {trees : List Tree} {roots word : List SymbolId} :
      r.isTerminal s = true → Parses r rules trees roots word →
      Parses r rules (.leaf s :: trees) (s :: roots) (s :: word)
  | node {rule : Rule} {children trees : List Tree} {below roots word : List SymbolId} :
      rule ∈ rules → Parses r rules children rule.rhs below → Parses r rules trees roots word →
      Parses r rules (.node rule children :: trees) (rule.lhs :: roots) (below ++ word)

variable {r : Registry} {rules : List Rule} {trees : List Tree} {roots word : List SymbolId}

theorem AllTerminal.nil : AllTerminal r [] := fun _ hs => by cases hs

theorem AllTerminal.append {a b : List SymbolId} (ha : AllTerminal r a) (hb : AllTerminal r b) :
    AllTerminal r (a ++ b) := by
  intro s hs
  rcases List.mem_append.mp hs with hs | hs
  · exact ha s hs
  · exact hb s hs

theorem Parses.length_eq (h : Parses r rules trees roots word) : trees.length = roots.length := by
  induction h with
  | nil => rfl
  | leaf _ _ ih => simp [ih]
  | node _ _ _ _ ih => simp [ih]

theorem Parses.allTerminal (h : Parses r rules trees roots word) : AllTerminal r word := by
  induction h with
  | nil => exact .nil
  | leaf hs _ ih =>
    intro t ht
    rcases List.mem_cons.mp ht with rfl | ht
    · exact hs
    · exact ih t ht
  | node _ _ _ ihc ih => exact ihc.append ih

theorem Parses.append {more : List Tree} {roots' word' : List SymbolId}
    (h : Parses r rules trees roots word) (h' : Parses r rules more roots' word') :
    Parses r rules (trees ++ more) (roots ++ roots') (word ++ word') := by
  induction h with
  | nil => exact h'
  | leaf hs _ ih => exact .leaf hs ih
  | node hr hc _ _ ih =>
    rw [List.append_assoc]
    exact .node hr hc ih

theorem Parses.split {front back : List SymbolId} (h : Parses r rules trees (front ++ back) word) :
    ∃ left right word₁ word₂, trees = left ++ right ∧ word = word₁ ++ word₂ ∧
      Parses r rules left front word₁ ∧ Parses r rules right back word₂ := by
  induction front generalizing trees word with
  | nil => exact ⟨[], trees, [], word, rfl, rfl, .nil, h⟩
  | cons s front ih =>
    cases h with
    | leaf hs hrest =>
      obtain ⟨left, right, word₁, word₂, rfl, rfl, hl, hr⟩ := ih hrest
      exact ⟨_, right, _, word₂, rfl, rfl, .leaf hs hl, hr⟩
    | node hrule hc hrest =>
      obtain ⟨left, right, word₁, word₂, rfl, rfl, hl, hr⟩ := ih hrest
      exact ⟨_, right, _, word₂, rfl, (List.append_assoc ..).symm, .node hrule hc hl, hr⟩

/-- The last trees come below a node when the right-hand side at the end is replaced. -/
theorem Parses.join {rule : Rule} {front : List SymbolId} (hr : rule ∈ rules)
    (h : Parses r rules trees (front ++ rule.rhs) word) :
    ∃ left right, trees = left ++ right ∧ right.length = rule.rhs.length ∧
      Parses r rules (left ++ [.node rule right]) (front ++ [rule.lhs]) word := by
  obtain ⟨left, right, word₁, word₂, rfl, rfl, hleft, hright⟩ := h.split
  have hnode : Parses r rules [.node rule right] [rule.lhs] (word₂ ++ []) := .node hr hright .nil
  rw [List.append_nil] at hnode
  exact ⟨left, right, rfl, hright.length_eq, hleft.append hnode⟩

theorem Parses.leaves {word : List SymbolId} (h : AllTerminal r word) :
    Parses r rules (word.map .leaf) word word := by
  induction word with
  | nil => exact .nil
  | cons s word ih =>
    exact .leaf (h s (by simp)) (ih fun t ht => h t (by simp [ht]))

theorem Parses.rightDerives (h : Parses r rules trees roots word) (before : List SymbolId)
    {after : List SymbolId} (ha : AllTerminal r after) :
    RightDerives r rules (before ++ roots ++ after) (before ++ word ++ after) := by
  induction h generalizing before after with
  | nil => exact .refl
  | @leaf s _ _ _ _ _ ih => simpa using ih (before ++ [s]) ha
  | @node rule children trees below roots word hr hc ht ihc ih =>
    have hrest := ih (before ++ [rule.lhs]) ha
    have hstep : RightRewrites r rules _ _ :=
      .apply before (word ++ after) hr (ht.allTerminal.append ha)
    have hbelow := ihc before (ht.allTerminal.append ha)
    simp only [List.append_assoc, List.cons_append, List.nil_append] at hrest hstep hbelow ⊢
    exact hrest.trans (.head hstep hbelow)

theorem RightRewrites.rewrites {a b : List SymbolId} (h : RightRewrites r rules a b) :
    Rewrites rules a b := by
  cases h with
  | apply before after hr _ => exact .apply before after hr

theorem RightDerives.derives {a b : List SymbolId} (h : RightDerives r rules a b) :
    Derives rules a b := by
  induction h with
  | refl => exact .refl
  | tail _ hs ih => exact ih.tail hs.rewrites

theorem Parses.derives (h : Parses r rules trees roots word) : Derives rules roots word := by
  have hh := (h.rightDerives [] AllTerminal.nil).derives
  simpa using hh

theorem Rewrites.append {a b : List SymbolId} (h : Rewrites rules a b)
    (before after : List SymbolId) : Rewrites rules (before ++ a ++ after) (before ++ b ++ after) := by
  cases h with
  | apply front back hr =>
    simpa only [List.append_assoc, List.cons_append] using
      Rewrites.apply (before ++ front) (back ++ after) hr

theorem Parses.undo {a b : List SymbolId} (h : Rewrites rules a b)
    (hb : Parses r rules trees b word) : ∃ trees', Parses r rules trees' a word := by
  cases h with
  | @apply rule before after hr =>
    obtain ⟨_, right, _, word₂, rfl, rfl, hleft, hright⟩ := hb.split
    obtain ⟨left, middle, word₀, word₁, rfl, rfl, hl, hm⟩ := hleft.split
    refine ⟨left ++ .node rule middle :: right, ?_⟩
    rw [List.append_assoc]
    exact hl.append (.node hr hm hright)

theorem Derives.parses {a : List SymbolId} (h : Derives rules a word)
    (hw : AllTerminal r word) : ∃ trees, Parses r rules trees a word := by
  induction h using Relation.ReflTransGen.head_induction_on with
  | refl => exact ⟨_, .leaves hw⟩
  | head hs _ ih =>
    obtain ⟨trees, ht⟩ := ih
    exact ht.undo hs

inductive Move where
  | shift (s : SymbolId)
  | reduce (rule : Rule)

mutual

def Tree.moves : Tree → List Move
  | .leaf s => [.shift s]
  | .node rule children => Tree.movesOf children ++ [.reduce rule]

def Tree.movesOf : List Tree → List Move
  | [] => []
  | t :: rest => t.moves ++ Tree.movesOf rest

end

def replay : List Move → List Tree → List Tree
  | [], stack => stack
  | .shift s :: moves, stack => replay moves (.leaf s :: stack)
  | .reduce rule :: moves, stack =>
    let size := rule.rhs.length
    replay moves (.node rule (stack.take size).reverse :: stack.drop size)

theorem Parses.replay_movesOf (h : Parses r rules trees roots word) (moves : List Move)
    (stack : List Tree) :
    replay (Tree.movesOf trees ++ moves) stack = replay moves (trees.reverse ++ stack) := by
  induction h generalizing moves stack with
  | nil => rfl
  | leaf _ _ ih => simp [Tree.movesOf, Tree.moves, replay, ih]
  | @node rule children trees below roots word _ hc _ ihc ih =>
    have hlen : rule.rhs.length = children.reverse.length := by simp [hc.length_eq]
    simp only [Tree.movesOf, Tree.moves, List.append_assoc, ihc, List.cons_append,
      List.nil_append, replay]
    rw [hlen, List.take_left, List.drop_left, List.reverse_reverse, ih]
    simp

/-- Forests that are built by the same moves are the same. -/
theorem Parses.eq_of_movesOf_eq {trees' : List Tree} {roots' word' : List SymbolId}
    (h : Parses r rules trees roots word) (h' : Parses r rules trees' roots' word')
    (he : Tree.movesOf trees = Tree.movesOf trees') : trees = trees' := by
  have hl := h.replay_movesOf [] []
  have hr := h'.replay_movesOf [] []
  rw [he, hr] at hl
  simpa [replay] using hl.symm

end CanonicalLR
