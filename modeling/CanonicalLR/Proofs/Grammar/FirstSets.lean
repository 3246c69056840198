import CanonicalLR.Proofs.Grammar.Built

/-! The loop of the passes over the rules. A pass notes whether it grew a set, and the loop goes on
while one did; it comes to an end, and then nullability and FIRST sets are those of derivations. -/

namespace CanonicalLR

namespace FirstFacts

variable {r : Registry} {rules : List Rule} {f f' : FirstFacts} {lhs : SymbolId}

/-- What a rule adds, with a note of whether a set grew. -/
def absorbNoting (lhs : SymbolId) : List SymbolId → FirstFacts → FirstFacts × Bool
  | [], f => ({ f with nullable := f.nullable.insert lhs }, f.nullable.insertGrows lhs)
  | s :: rest, f =>
    let merged := f.mergeFirst lhs (f.firstOf s)
    let grows := (f.firstOf lhs).mergeGrows (f.firstOf s)
    if merged.nullable.contains s then
      let (after, more) := absorbNoting lhs rest merged
      (after, grows || more)
    else (merged, grows)

def noteRule (found : FirstFacts × Bool) (rule : Rule) : FirstFacts × Bool :=
  let (after, more) := absorbNoting rule.lhs rule.rhs found.1
  (after, found.2 || more)

def passNoting (rules : List Rule) (f : FirstFacts) : FirstFacts × Bool :=
  rules.foldl noteRule (f, false)

/-- Passes are made until one grows no set. -/
inductive PassesTo (rules : List Rule) : FirstFacts → FirstFacts → Prop where
  | last {f f' : FirstFacts} : passNoting rules f = (f', false) → PassesTo rules f f'
  | again {f f' f'' : FirstFacts} : passNoting rules f = (f', true) → PassesTo rules f' f'' →
      PassesTo rules f f''

/-! The note says whether anything changed. -/

theorem mergeFirst_eq_iff (hlhs : lhs.val < f.first.length) (set : SymbolSet) :
    f.mergeFirst lhs set = f ↔ (f.firstOf lhs).merge set = f.firstOf lhs := by
  constructor
  · intro he
    have hfirst := f.firstOf_mergeFirst lhs lhs set
    rw [he, if_pos ⟨rfl, hlhs⟩] at hfirst
    exact hfirst.symm
  · intro he
    have hmodify : f.first.modify lhs.val (·.merge set) = f.first := by
      refine List.ext_getElem? fun i => ?_
      rw [List.getElem?_modify]
      by_cases hi : lhs.val = i
      · subst hi
        simp only [firstOf, List.getD_eq_getElem?_getD, List.getElem?_eq_getElem hlhs,
          Option.getD_some] at he
        simp [List.getElem?_eq_getElem hlhs, he]
      · simp [hi]
    rw [mergeFirst, hmodify]

theorem absorbNoting_eq (hlhs : lhs.val < f.first.length) (ids : List SymbolId) :
    absorbNoting lhs ids f = (absorb lhs ids f, decide (absorb lhs ids f ≠ f)) := by
  induction ids generalizing f with
  | nil =>
    have hnote : f.nullable.insertGrows lhs = decide (absorb lhs [] f ≠ f) := by
      cases f
      simp [SymbolSet.insertGrows, absorb, bne, Bool.beq_eq_decide_eq]
    rw [absorbNoting, absorb, hnote, absorb]
  | cons s ids ih =>
    let merged := f.mergeFirst lhs (f.firstOf s)
    have hgrows : (f.firstOf lhs).mergeGrows (f.firstOf s) = decide (merged ≠ f) := by
      simp [SymbolSet.mergeGrows, bne, Bool.beq_eq_decide_eq, merged, mergeFirst_eq_iff hlhs]
    simp only [absorbNoting, absorb, hgrows]
    split
    · have hlen : lhs.val < merged.first.length := by simpa [merged, mergeFirst] using hlhs
      rw [ih hlen, ← (advances_mergeFirst f lhs (f.firstOf s)).decide_or
        (advances_absorb lhs ids merged)]
    · rfl

theorem passNoting_eq (hrules : ∀ rule ∈ rules, r.Registered rule.lhs) (h : Within r f) :
    passNoting rules f = (pass rules f, decide (pass rules f ≠ f)) := by
  have hnote : ∀ f changed, Within r f → ∀ rule ∈ rules, noteRule (f, changed) rule =
      (absorb rule.lhs rule.rhs f, changed || decide (absorb rule.lhs rule.rhs f ≠ f)) := by
    intro f changed h rule hr
    have hlen : rule.lhs.val < f.first.length := h.length ▸ hrules rule hr
    simp only [noteRule, absorbNoting_eq hlen]
  exact Advances.foldl_note (fun f rule => advances_absorb rule.lhs rule.rhs f)
    (fun f h rule hr => h.absorb (hrules rule hr) rule.rhs) hnote h false

theorem PassesTo.of_saturates (hrules : ∀ rule ∈ rules, r.Registered rule.lhs)
    (h : Saturates (pass rules) f f') (hf : Within r f) : PassesTo rules f f' := by
  induction h with
  | done he =>
    refine .last ?_
    rw [passNoting_eq hrules hf, he, decide_eq_false (not_not_intro rfl)]
  | again hne _ ih =>
    refine .again ?_ (ih (hf.pass hrules))
    rw [passNoting_eq hrules hf, decide_eq_true hne]

theorem passesTo_of (h : RuleTable r rules) : PassesTo rules (initial r) (of r rules) :=
  .of_saturates h.registered (saturates_of h) (within_initial h.registry)

end FirstFacts

namespace Analysis

variable {r : Registry} {rules : List Rule}

theorem contains_first_iff (h : RuleTable r rules) (s t : SymbolId) :
    ((of r rules).first s).contains t = true ↔ Starts r rules t [s] := by
  rw [← contains_firstOfAll_of h t [s]]
  simp only [firstOfAll]
  split <;> simp

/-- The passes come to an end, and what they find are the sequences that derive nothing and the
terminals that a sentential form can begin with. -/
theorem facts_are_derived (hr : r.Built)
    (hrules : ∀ rule ∈ rules, r.Registered rule.lhs ∧ r.isTerminal rule.lhs = false) :
    FirstFacts.PassesTo rules (.initial r) (of r rules).facts ∧
      (∀ q, ((of r rules).allNullable q = true ↔ Derives rules q []) ∧
        ∀ t, ((of r rules).firstOfAll q).contains t = true ↔
          r.isTerminal t = true ∧ ∃ rest, Derives rules q (t :: rest)) ∧
      ∀ s, ((of r rules).isNullable s = true ↔ Derives rules [s] []) ∧
        ∀ t, ((of r rules).first s).contains t = true ↔
          r.isTerminal t = true ∧ ∃ rest, Derives rules [s] (t :: rest) := by
  have h : RuleTable r rules :=
    ⟨hr.sound, fun rule hrule => (hrules rule hrule).1, fun rule hrule => (hrules rule hrule).2⟩
  refine ⟨FirstFacts.passesTo_of h, fun q => ⟨?_, fun t => ?_⟩, fun s => ⟨?_, fun t => ?_⟩⟩
  · rw [allNullable_of h, vanishes_iff_derives]
  · rw [contains_firstOfAll_of h, starts_iff_derives]
  · rw [isNullable_of h, vanishes_iff_derives]
  · rw [contains_first_iff h, starts_iff_derives]

/-! The rules `A → B`, `B → A`, `B → x`, `C → A y` and `A →`, where two nonterminals derive each
other. -/

def cyclicSymbols : Registry :=
  ⟨Registry.new.symbols ++ [⟨"x", .terminal 120⟩, ⟨"y", .terminal 121⟩, ⟨"A", .nonterminal⟩,
    ⟨"B", .nonterminal⟩, ⟨"C", .nonterminal⟩]⟩

def cyclicRules : List Rule :=
  [{ id := 1, lhs := 4, rhs := [5] }, { id := 2, lhs := 5, rhs := [4] },
    { id := 3, lhs := 5, rhs := [2] }, { id := 4, lhs := 6, rhs := [4, 3] },
    { id := 5, lhs := 4, rhs := [] }]

theorem cyclic_facts_are_derived : cyclicSymbols.Built ∧
    (∀ rule ∈ cyclicRules,
      cyclicSymbols.Registered rule.lhs ∧ cyclicSymbols.isTerminal rule.lhs = false) ∧
    FirstFacts.PassesTo cyclicRules (.initial cyclicSymbols) (of cyclicSymbols cyclicRules).facts ∧
    Derives cyclicRules [5, 4] [] ∧ ¬ Derives cyclicRules [5, 6] [] ∧
    ∃ rest, Derives cyclicRules [6] (3 :: rest) := by
  have hbuilt : cyclicSymbols.Built := Registry.built_of_nodup (by decide) (by decide) (by decide)
  have hrules : ∀ rule ∈ cyclicRules,
      cyclicSymbols.Registered rule.lhs ∧ cyclicSymbols.isTerminal rule.lhs = false := by decide
  have hnullable : (of cyclicSymbols cyclicRules).allNullable [5, 4] = true ∧
      (of cyclicSymbols cyclicRules).allNullable [5, 6] = false := by decide +kernel
  have hfirst : ((of cyclicSymbols cyclicRules).first 6).contains 3 = true := by decide +kernel
  obtain ⟨hpasses, hall, hsingle⟩ := facts_are_derived hbuilt hrules
  refine ⟨hbuilt, hrules, hpasses, (hall [5, 4]).1.mp hnullable.1, fun hderives => ?_,
    (((hsingle 6).2 3).mp hfirst).2⟩
  have hno := (hall [5, 6]).1.mpr hderives
  rw [hnullable.2] at hno
  cases hno

end Analysis

end CanonicalLR
