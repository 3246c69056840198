import CanonicalLR.Proofs.Automaton.ValidItems
import CanonicalLR.Proofs.Grammar.Configured

/-! The item sets of a grammar and its rightmost derivations. A sequence leads from the first set to
one with items just if it is viable; that set is among those of the configured grammar, and it holds
the items that are valid for the sequence. -/

namespace CanonicalLR

theorem ItemSet.items_ne_nil_iff (set : ItemSet) :
    set.items ≠ [] ↔ ∃ i d ahead, set.Has i d ahead := by
  constructor
  · intro h
    obtain ⟨it, hit⟩ := List.exists_mem_of_ne_nil _ h
    exact ⟨it.rule, it.dot, none, it, hit, rfl, rfl, fun _ ht => by cases ht⟩
  · rintro ⟨_, _, _, it, hit, -⟩ hnil
    rw [hnil] at hit
    cases hit

namespace Grammar

open Collection

variable {g : Grammar} {path : List SymbolId} {j : Nat}

/-- Every nonterminal that occurs in a rule derives some word. -/
def Productive (g : Grammar) : Prop :=
  ∀ rule ∈ g.rules, ∀ s, rule.Mentions s → g.symbols.isTerminal s = false →
    ∃ word, AllTerminal g.symbols word ∧ Derives g.rules [s] word

theorem Productive.of_eq {g' : Grammar} (h : g.Productive) (hs : g'.symbols = g.symbols)
    (hr : g'.rules = g.rules) : g'.Productive := by
  rw [Productive, hs, hr]
  exact h

theorem Productive.parses (h : g.Productive) {rule : Rule} (hr : rule ∈ g.rules) {s : SymbolId}
    (hs : rule.Mentions s) : ∃ trees word, Parses g.symbols g.rules trees [s] word := by
  by_cases ht : g.symbols.isTerminal s = true
  · exact ⟨[.leaf s], [s], .leaf ht .nil⟩
  · obtain ⟨word, hw, hd⟩ := h rule hr s hs (by simpa using ht)
    obtain ⟨trees, hp⟩ := hd.parses hw
    exact ⟨trees, word, hp⟩

theorem Productive.analysis (h : g.Productive) : g.analysis.Productive :=
  fun _ hr _ hs => h.parses hr (Or.inr hs)

theorem WellFormed.single (h : g.WellFormed) {s : SymbolId} (hv : g.Valid s)
    (hc : ∀ rule ∈ g.clients, ¬ rule.Mentions .start) : g.analysis.Single where
  top := ⟨_, h.top_eq hv, rfl⟩
  only := by
    intro j rule hj hlhs
    cases j with
    | zero => rfl
    | succ j =>
      change g.rules[j + 1]? = some rule at hj
      rw [h.rules_eq hv, List.getElem?_cons_succ] at hj
      exact absurd (Or.inl hlhs.symm) (hc rule (List.mem_of_getElem? hj))

theorem exists_row_of_at (hg : g.Built) (hv : g.validate = .ok ()) (hj : At g.analysis j path) :
    ∃ row ∈ g.configure.2.rows, row.set.Tidy ∧ row.set.Spells g.analysis path := by
  obtain ⟨s, hvalid⟩ := g.validate_ok.mp hv
  have ha := hg.wellFormed.faithful hvalid
  have hgathered := (explored_of ha hg.wellFormed.rules_pos).1.gathered
  obtain ⟨m, hm, hspells⟩ := hj
  obtain ⟨shifts, -, -, hrow, hset⟩ := row_of_member hg hv hm
  refine ⟨_, List.mem_of_getElem? hrow, ?_, ?_⟩
  · rw [hset]
    exact hgathered.tidy m (List.mem_of_getElem? hm)
  · rw [hset]
    exact hspells

theorem items_after (hg : g.Built) (hv : g.validate = .ok ())
    (hc : ∀ rule ∈ g.clients, ¬ rule.Mentions .start) (hp : g.Productive) (path : List SymbolId) :
    ((ItemSet.after g.analysis path).items ≠ [] ↔ Viable g.symbols g.rules path) ∧
      ((ItemSet.after g.analysis path).items ≠ [] →
        ∃ row ∈ g.configure.2.rows, row.set.same (ItemSet.after g.analysis path) = true) ∧
      ∀ i rule d t, g.rules[i]? = some rule → d ≤ rule.rhs.length →
        ((ItemSet.after g.analysis path).Has i d (some t) ↔ ∃ before word,
          RightDerives g.symbols g.rules [.start] (before ++ rule.lhs :: word) ∧
            AllTerminal g.symbols word ∧ path = before ++ rule.rhs.take d ∧
            (word ++ [SymbolId.finish]).head? = some t) := by
  obtain ⟨s, hvalid⟩ := g.validate_ok.mp hv
  have ha := hg.wellFormed.faithful hvalid
  have hpos : 0 < g.analysis.rules.length := hg.wellFormed.rules_pos
  have htop := hg.wellFormed.single hvalid hc
  have hspells := ItemSet.spells_after ha path
  have hnonempty : (ItemSet.after g.analysis path).items ≠ [] ↔
      ∃ i d ahead, Reaches g.analysis path i d ahead := by
    rw [ItemSet.items_ne_nil_iff]
    simp only [hspells _ _ _]
  refine ⟨?_, fun hne => ?_, fun i rule d t hrule hd => ?_⟩
  · rw [hnonempty]
    exact exists_reaches_iff_viable ha hp.analysis htop
  · obtain ⟨_, _, _, hr⟩ := hnonempty.mp hne
    obtain ⟨j, hj⟩ := exists_at ha hpos hr
    obtain ⟨row, hrow, htidy, hrowspells⟩ := exists_row_of_at hg hv hj
    exact ⟨row, hrow, (hspells.same_iff (ItemSet.tidy_after _ path) htidy).mpr hrowspells⟩
  · rw [hspells, reaches_iff_validItem ha hp.analysis htop]
    constructor
    · rintro ⟨rule', before, word, hrule', -, hder, hword, hpath, hahead⟩
      obtain rfl := Option.some.inj (hrule.symm.trans hrule')
      exact ⟨before, word, hder, hword, hpath, hahead t rfl⟩
    · rintro ⟨before, word, hder, hword, hpath, hahead⟩
      exact ⟨rule, before, word, hrule, hd, hder, hword, hpath,
        fun t' ht' => by rw [← Option.some.inj ht']; exact hahead⟩

theorem chain_productive : chain.Productive := by
  have hid : ∀ rule ∈ chain.rules, ∀ s ∈ rule.lhs :: rule.rhs,
      chain.symbols.isTerminal s = false → s = .start ∨ s = 2 := by decide +kernel
  have htop : (⟨0, .start, [2], none, 0⟩ : Rule) ∈ chain.rules := by decide +kernel
  have hstop : (⟨2, 2, [], none, 2⟩ : Rule) ∈ chain.rules := by decide +kernel
  have hempty : Derives chain.rules [2] [] := .single (.apply [] [] hstop)
  intro rule hr s hs ht
  rcases hid rule hr s (List.mem_cons.mpr hs) ht with rfl | rfl
  · exact ⟨[], .nil, .head (.apply [] [] htop) hempty⟩
  · exact ⟨[], .nil, hempty⟩

theorem chain_items_after : Viable chain.symbols chain.rules [3, 3] ∧
    (∃ row ∈ chain.configure.2.rows, row.set.same (ItemSet.after chain.analysis [3, 3]) = true) ∧
    ∃ before word, RightDerives chain.symbols chain.rules [.start] (before ++ 2 :: word) ∧
      AllTerminal chain.symbols word ∧ [3, 3] = before ++ [3] ∧
      (word ++ [SymbolId.finish]).head? = some .finish := by
  have hvalid : chain.validate = .ok () := by decide +kernel
  obtain ⟨hviable, hrow, hitems⟩ :=
    items_after chain_built hvalid (by decide +kernel) chain_productive [3, 3]
  have hne : (ItemSet.after chain.analysis [3, 3]).items ≠ [] := by decide +kernel
  have hrule : chain.rules[1]? = some ⟨1, 2, [3, 2], none, 1⟩ := by decide +kernel
  have hhas : (ItemSet.after chain.analysis [3, 3]).Has 1 1 (some .finish) := by
    have hmem : ∃ it ∈ (ItemSet.after chain.analysis [3, 3]).items,
        it.rule = 1 ∧ it.dot = 1 ∧ it.follow.contains .finish = true := by decide +kernel
    obtain ⟨it, hit, hi, hd, ht⟩ := hmem
    exact ⟨it, hit, hi, hd, fun t h => by cases h; exact ht⟩
  exact ⟨hviable.mp hne, hrow hne, (hitems 1 _ 1 .finish hrule (by decide)).mp hhas⟩

end Grammar

end CanonicalLR
