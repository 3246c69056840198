import CanonicalLR.Proofs.Derivation.Tree
import Mathlib.Data.Set.Card

/-! Symbols that come back to themselves with nothing but ends of the input before them. Where no
symbol does, a tree is not larger than its leaves allow that are not ends of the input. -/

namespace CanonicalLR

variable {r : Registry} {rules : List Rule} {s t u : SymbolId}

/-- The sequence derives a word of ends alone, if not the empty one. -/
def Mute (r : Registry) (rules : List Rule) (ids : List SymbolId) : Prop :=
  ∃ trees word, Parses r rules trees ids word ∧ ∀ s ∈ word, s = .finish

/-- The first symbol derives the second one, with a sequence before and one behind it. -/
def Embeds (rules : List Rule) (s : SymbolId) (before : List SymbolId) (t : SymbolId)
    (after : List SymbolId) : Prop :=
  Relation.TransGen (Rewrites rules) [s] (before ++ t :: after)

/-- A symbol derives itself where what comes before it is mute. Then a parser can come back to it
without a token, and has more on its stack or has only built one more node. -/
def Looping (r : Registry) (rules : List Rule) : Prop :=
  ∃ s before after, Embeds rules s before s after ∧ Mute r rules before ∧
    (before ≠ [] ∨ Mute r rules after)

theorem Mute.nil : Mute r rules [] := ⟨[], [], .nil, by simp⟩

theorem Mute.append {a b : List SymbolId} (ha : Mute r rules a) (hb : Mute r rules b) :
    Mute r rules (a ++ b) := by
  obtain ⟨left, word, hl, hw⟩ := ha
  obtain ⟨right, word', hr, hw'⟩ := hb
  refine ⟨left ++ right, word ++ word', hl.append hr, fun s hs => ?_⟩
  exact (List.mem_append.mp hs).elim (hw s) (hw' s)

theorem Mute.of_append {a b : List SymbolId} (h : Mute r rules (a ++ b)) :
    Mute r rules a ∧ Mute r rules b := by
  obtain ⟨trees, word, hp, hw⟩ := h
  obtain ⟨left, right, word₁, word₂, -, rfl, hl, hr⟩ := hp.split
  exact ⟨⟨left, word₁, hl, fun s hs => hw s (List.mem_append_left _ hs)⟩,
    ⟨right, word₂, hr, fun s hs => hw s (List.mem_append_right _ hs)⟩⟩

theorem Embeds.of_rule {rule : Rule} (hr : rule ∈ rules) {before after : List SymbolId}
    (h : rule.rhs = before ++ t :: after) : Embeds rules rule.lhs before t after := by
  have hstep : Rewrites rules ([] ++ rule.lhs :: []) ([] ++ rule.rhs ++ []) := .apply [] [] hr
  rw [h, List.append_nil] at hstep
  exact .single hstep

theorem Embeds.trans {before after before' after' : List SymbolId}
    (h : Embeds rules s before t after) (h' : Embeds rules t before' u after') :
    Embeds rules s (before ++ before') u (after' ++ after) := by
  have hlift : Relation.TransGen (Rewrites rules) (before ++ [t] ++ after)
      (before ++ (before' ++ u :: after') ++ after) :=
    Relation.TransGen.lift (fun ids => before ++ ids ++ after)
      (fun _ _ (hs : Rewrites rules _ _) => hs.append before after) _ _ h'
  simp only [List.append_assoc, List.cons_append, List.nil_append] at hlift
  unfold Embeds
  rw [List.append_assoc]
  exact Relation.TransGen.trans h hlift

/-! Two orders on the symbols: by what is inside a symbol with nothing beside it, and by what comes
later in it, with something mute before. -/

def Inner (r : Registry) (rules : List Rule) (s t : SymbolId) : Prop :=
  ∃ before after, Embeds rules s before t after ∧ Mute r rules before ∧ Mute r rules after

def Later (r : Registry) (rules : List Rule) (s t : SymbolId) : Prop :=
  ∃ before after, Embeds rules s before t after ∧ Mute r rules before ∧ before ≠ []

theorem Inner.trans (h : Inner r rules s t) (h' : Inner r rules t u) : Inner r rules s u := by
  obtain ⟨before, after, he, hb, ha⟩ := h
  obtain ⟨before', after', he', hb', ha'⟩ := h'
  exact ⟨_, _, he.trans he', hb.append hb', ha'.append ha⟩

theorem Later.of_embeds {before after : List SymbolId} (he : Embeds rules s before t after)
    (hb : Mute r rules before) (h : Later r rules t u) : Later r rules s u := by
  obtain ⟨before', after', he', hb', hne⟩ := h
  exact ⟨_, _, he.trans he', hb.append hb', fun h => hne (List.append_eq_nil_iff.mp h).2⟩

theorem not_inner_self (hno : ¬ Looping r rules) (s : SymbolId) : ¬ Inner r rules s s :=
  fun ⟨before, after, he, hb, ha⟩ => hno ⟨s, before, after, he, hb, Or.inr ha⟩

theorem not_later_self (hno : ¬ Looping r rules) (s : SymbolId) : ¬ Later r rules s s :=
  fun ⟨before, after, he, hb, hne⟩ => hno ⟨s, before, after, he, hb, Or.inl hne⟩

/-- How many symbols are below one. -/
noncomputable def rank (below : SymbolId → SymbolId → Prop) (s : SymbolId) : Nat :=
  {t | below s t}.ncard

section Rank

variable {below : SymbolId → SymbolId → Prop}

theorem rank_le (hsub : ∀ u, below t u → below s u) : rank below t ≤ rank below s :=
  Set.ncard_le_ncard hsub

theorem rank_lt (hirrefl : ¬ below t t) (hsub : ∀ u, below t u → below s u) (h : below s t) :
    rank below t < rank below s :=
  Set.ncard_lt_ncard ⟨hsub, fun hsup => hirrefl (hsup h)⟩

theorem rank_lt_maxSymbols (hirrefl : ¬ below s s) : rank below s < maxSymbols := by
  have hlt : {t | below s t}.ncard < (Set.univ : Set SymbolId).ncard :=
    Set.ncard_lt_ncard ⟨Set.subset_univ _, fun hsup => hirrefl (hsup (Set.mem_univ s))⟩
  rwa [Set.ncard_univ, Nat.card_eq_fintype_card, Fintype.card_fin] at hlt

end Rank

/-- What is mute before a symbol has room between the rank of the symbol and that of the one it is
embedded in. -/
theorem length_add_rank_le (hno : ¬ Looping r rules) {before after : List SymbolId} {width : Nat}
    (he : Embeds rules s before t after) (hb : Mute r rules before)
    (hlen : before.length ≤ width) :
    before.length + width * rank (Later r rules) t ≤ width * rank (Later r rules) s := by
  have hsub : ∀ u, Later r rules t u → Later r rules s u := fun u => Later.of_embeds he hb
  cases before with
  | nil => simpa using Nat.mul_le_mul_left width (rank_le hsub)
  | cons x before =>
    have hlater : Later r rules s t := ⟨_, _, he, hb, List.cons_ne_nil x before⟩
    have hmul := Nat.mul_le_mul_left width (rank_lt (not_later_self hno t) hsub hlater)
    rw [Nat.mul_succ] at hmul
    omega

/-! The size of trees. -/

/-- How many terminals of a word are not ends of the input. -/
def loudness (word : List SymbolId) : Nat := word.countP (· != .finish)

theorem loudness_append (word word' : List SymbolId) :
    loudness (word ++ word') = loudness word + loudness word' :=
  List.countP_append

theorem loudness_eq_zero {word : List SymbolId} : loudness word = 0 ↔ ∀ s ∈ word, s = .finish := by
  simp [loudness, List.countP_eq_zero]

theorem Parses.mute {trees : List Tree} {roots word : List SymbolId}
    (h : Parses r rules trees roots word) (hw : loudness word = 0) : Mute r rules roots :=
  ⟨trees, word, h, loudness_eq_zero.mp hw⟩

theorem Parses.length_movesOf_le {bound : Nat} {done trees : List Tree}
    {front roots before word : List SymbolId} (hdone : Parses r rules done front before)
    (h : Parses r rules trees roots word)
    (hb : ∀ left s right tree before' word' after, front ++ roots = left ++ s :: right →
      (∃ trees, Parses r rules trees left before') → Parses r rules [tree] [s] word' →
      (∃ trees, Parses r rules trees right after) → before ++ word = before' ++ (word' ++ after) →
      tree.moves.length ≤ bound) : (Tree.movesOf trees).length ≤ roots.length * bound := by
  induction h generalizing done front before with
  | nil => simp [Tree.movesOf]
  | @leaf s trees roots word hs hrest ih =>
    have hleaf : Parses r rules [.leaf s] [s] [s] := .leaf hs .nil
    have hhead := hb front s roots (.leaf s) before [s] word rfl ⟨_, hdone⟩ hleaf ⟨_, hrest⟩ rfl
    have htail := ih (hdone.append hleaf) (by simpa using hb)
    simp only [Tree.movesOf, List.length_append, List.length_cons, Nat.succ_mul]
    omega
  | @node rule children trees below roots word hr hc hrest _ ih =>
    have hnode : Parses r rules [.node rule children] [rule.lhs] below := by
      simpa using Parses.node hr hc .nil
    have hhead := hb front rule.lhs roots _ before below word rfl ⟨_, hdone⟩ hnode ⟨_, hrest⟩ rfl
    have htail := ih (hdone.append hnode) (by simpa using hb)
    simp only [Tree.movesOf, List.length_append, List.length_cons, Nat.succ_mul]
    omega

/-- A tree either splits its leaves or its root comes closer to the innermost symbols, one level
further down. -/
theorem Parses.length_moves_le (hno : ¬ Looping r rules) {width : Nat}
    (hwidth : ∀ rule ∈ rules, rule.rhs.length ≤ width) {n : Nat} {tree : Tree} {word : List SymbolId}
    (h : Parses r rules [tree] [s] word)
    (hn : loudness word * (maxSymbols + 1) + rank (Inner r rules) s < n) :
    tree.moves.length ≤ (width + 1) ^ n := by
  induction n generalizing tree s word with
  | zero => omega
  | succ n ih =>
    cases h with
    | leaf => simpa [Tree.moves] using Nat.one_le_pow _ _ (Nat.succ_pos width)
    | @node rule children _ below _ word hr hc hnil =>
      cases hnil
      rw [List.append_nil] at hn
      have hchildren : (Tree.movesOf children).length ≤ rule.rhs.length * (width + 1) ^ n := by
        refine Parses.length_movesOf_le .nil hc fun left s right tree before word' after hrhs hleft
          hp hright hword => ih hp ?_
        obtain ⟨_, hleft⟩ := hleft
        obtain ⟨_, hright⟩ := hright
        rw [List.nil_append] at hrhs hword
        have hloud : loudness below = loudness before + (loudness word' + loudness after) := by
          rw [hword, loudness_append, loudness_append]
        by_cases hzero : loudness before = 0 ∧ loudness after = 0
        · -- nothing is beside the child, so it is closer to the innermost symbols
          have hinner : Inner r rules rule.lhs s :=
            ⟨left, right, .of_rule hr hrhs, hleft.mute hzero.1, hright.mute hzero.2⟩
          have hlt := rank_lt (not_inner_self hno s) (fun _ => hinner.trans) hinner
          have he : loudness below = loudness word' := by omega
          rw [he] at hn
          omega
        · have hlt := rank_lt_maxSymbols (not_inner_self hno s)
          have hle : (loudness word' + 1) * (maxSymbols + 1) ≤ loudness below * (maxSymbols + 1) :=
            Nat.mul_le_mul_right _ (by omega)
          rw [Nat.succ_mul] at hle
          omega
      have hwide := Nat.mul_le_mul_right ((width + 1) ^ n) (hwidth rule hr)
      have hpos : 1 ≤ (width + 1) ^ n := Nat.one_le_pow _ _ (Nat.succ_pos width)
      simp only [Tree.moves, List.length_append, List.length_singleton, Nat.pow_succ, Nat.mul_succ,
        Nat.mul_comm _ width]
      omega

/-! Grammars that are not looping at first sight. -/

theorem Parses.length_le (hrules : ∀ rule ∈ rules, rule.rhs ≠ [] ∧ .finish ∉ rule.rhs)
    {trees : List Tree} {roots word : List SymbolId} (h : Parses r rules trees roots word)
    (hroots : .finish ∉ roots) : .finish ∉ word ∧ roots.length ≤ word.length := by
  induction h with
  | nil => exact ⟨hroots, Nat.le_refl _⟩
  | leaf _ _ ih =>
    rw [List.mem_cons, not_or] at hroots ⊢
    obtain ⟨hword, hlen⟩ := ih hroots.2
    exact ⟨⟨hroots.1, hword⟩, by simpa using hlen⟩
  | @node rule _ _ below _ word hr _ _ ihc ih =>
    obtain ⟨hbelow, hlen⟩ := ihc (hrules rule hr).2
    obtain ⟨hword, hlen'⟩ := ih fun hmem => hroots (List.mem_cons_of_mem _ hmem)
    have hpos := List.length_pos_of_ne_nil (hrules rule hr).1
    refine ⟨List.not_mem_append hbelow hword, ?_⟩
    simp only [List.length_cons, List.length_append]
    omega

theorem Mute.eq_nil (hrules : ∀ rule ∈ rules, rule.rhs ≠ [] ∧ .finish ∉ rule.rhs)
    {ids : List SymbolId} (h : Mute r rules ids) (hids : .finish ∉ ids) : ids = [] := by
  obtain ⟨trees, word, hp, hw⟩ := h
  obtain ⟨hfinish, hlen⟩ := hp.length_le hrules hids
  cases word with
  | nil => exact List.length_eq_zero_iff.mp (Nat.le_zero.mp hlen)
  | cons s word => exact absurd (hw s List.mem_cons_self ▸ List.mem_cons_self) hfinish

/-- No rule is empty or has the end of the input in it, and rules with a single symbol lead down. -/
theorem not_looping_of_height (height : SymbolId → Nat)
    (h : ∀ rule ∈ rules, rule.rhs ≠ [] ∧ .finish ∉ rule.rhs ∧
      ∀ s, rule.rhs = [s] → height s < height rule.lhs) : ¬ Looping r rules := by
  have hrules : ∀ rule ∈ rules, rule.rhs ≠ [] ∧ .finish ∉ rule.rhs :=
    fun rule hr => ⟨(h rule hr).1, (h rule hr).2.1⟩
  have hforms : ∀ {s ids}, Relation.TransGen (Rewrites rules) [s] ids →
      .finish ∉ ids ∧ ∀ t, ids = [t] → height t < height s := by
    intro s ids hd
    induction hd with
    | single hstep =>
      generalize hone : [s] = form at hstep
      obtain ⟨before, after, hr⟩ := hstep
      obtain ⟨rfl, hcons⟩ | ⟨-, hnil⟩ := List.append_eq_singleton_iff.mp hone.symm
      · obtain ⟨rfl, rfl⟩ := List.cons.inj hcons
        simpa using (h _ hr).2
      · cases hnil
    | tail _ hstep ih =>
      obtain ⟨before, after, hr⟩ := hstep
      obtain ⟨hne, hfinish, hdown⟩ := h _ hr
      obtain ⟨hform, hone⟩ := ih
      simp only [List.mem_append, List.mem_cons, not_or] at hform
      refine ⟨by simp [hform.1, hfinish, hform.2.2], fun t ht => ?_⟩
      have hlen := congrArg List.length ht
      have hpos := List.length_pos_of_ne_nil hne
      simp only [List.length_append, List.length_singleton] at hlen
      obtain rfl := List.length_eq_zero_iff.mp (show before.length = 0 by omega)
      obtain rfl := List.length_eq_zero_iff.mp (show after.length = 0 by omega)
      exact (hdown t (by simpa using ht)).trans (hone _ rfl)
  rintro ⟨s, before, after, he, hb, hafter⟩
  obtain ⟨hfinish, hone⟩ := hforms he
  simp only [List.mem_append, List.mem_cons, not_or] at hfinish
  obtain rfl := hb.eq_nil hrules hfinish.1
  obtain rfl : after = [] := by
    rcases hafter with hne | ha
    · exact absurd rfl hne
    · exact ha.eq_nil hrules hfinish.2.2
  exact Nat.lt_irrefl _ (hone s rfl)

end CanonicalLR
