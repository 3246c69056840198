import CanonicalLR.Proofs.Automaton.Reaches

/-! The items that are reached with a sequence are those that are valid for it: a rightmost
derivation reaches a nonterminal after the first part of the sequence, the rest of it is the part
of a rule before the dot, and the terminal ahead comes next. -/

namespace CanonicalLR

def ValidItem (a : Analysis) (path : List SymbolId) (i d : Nat) (ahead : Option SymbolId) : Prop :=
  ∃ rule before word, a.rules[i]? = some rule ∧ d ≤ rule.rhs.length ∧
    RightDerives a.symbols a.rules [.start] (before ++ rule.lhs :: word) ∧
    AllTerminal a.symbols word ∧ path = before ++ rule.rhs.take d ∧
    ∀ t, ahead = some t → (word ++ [SymbolId.finish]).head? = some t

/-- A part of a sequence that a rightmost derivation makes in its last step, which ends with the
symbols that this step puts in at the latest. -/
def Viable (r : Registry) (rules : List Rule) (path : List SymbolId) : Prop :=
  ∃ rule ∈ rules, ∃ before word, RightDerives r rules [.start] (before ++ rule.lhs :: word) ∧
    AllTerminal r word ∧ path <+: before ++ rule.rhs

variable {a : Analysis} {path : List SymbolId} {i d j : Nat} {ahead ahead' : Option SymbolId}

def Analysis.Productive (a : Analysis) : Prop :=
  ∀ rule ∈ a.rules, CanonicalLR.Productive a.symbols a.rules rule.rhs

structure Analysis.Single (a : Analysis) : Prop where
  top : ∃ rule, a.rules[0]? = some rule ∧ rule.lhs = .start
  only : ∀ (j : Nat) (rule : Rule), a.rules[j]? = some rule → rule.lhs = .start → j = 0

theorem Leads.parses (hprod : a.Productive) {ids word : List SymbolId} {t : SymbolId}
    (hids : Productive a.symbols a.rules ids) (hl : Leads a.symbols a.rules t ids ahead)
    (hahead : ∀ t, ahead = some t → (word ++ [SymbolId.finish]).head? = some t) :
    ∃ trees more, Parses a.symbols a.rules trees ids more ∧
      (more ++ word ++ [SymbolId.finish]).head? = some t := by
  rcases hl with hs | ⟨⟨trees, hv⟩, ht⟩
  · obtain ⟨trees, more, hm⟩ := hs.parses hprod hids
    exact ⟨trees, t :: more, hm, rfl⟩
  · exact ⟨trees, [], hv, hahead t ht⟩

theorem ValidItem.predict (hprod : a.Productive) (h : ValidItem a path i d ahead)
    (hp : Predicts a i d ahead j ahead') : ValidItem a path j 0 ahead' := by
  obtain ⟨rule, before, word, hrule, hd, hder, hword, rfl, hahead⟩ := h
  obtain ⟨rule', hrule', hdot, hleads⟩ := hp
  rw [Analysis.rhs_eq hrule] at hdot
  let rest := rule.rhs.drop (d + 1)
  have hsplit : rule.rhs = rule.rhs.take d ++ rule'.lhs :: rest := Rule.rhs_split hdot
  have hmem := List.mem_of_getElem? hrule
  have hrest : Productive a.symbols a.rules rest :=
    fun s hs => hprod rule hmem s (List.mem_of_mem_drop hs)
  obtain ⟨trees, more, hparses, hmore⟩ : ∃ trees more,
      Parses a.symbols a.rules trees rest more ∧
        ∀ t, ahead' = some t → (more ++ word ++ [SymbolId.finish]).head? = some t := by
    cases ahead' with
    | none =>
      obtain ⟨trees, more, hm⟩ := hrest.parses
      exact ⟨trees, more, hm, fun _ h => by cases h⟩
    | some t =>
      have hl := hleads t rfl
      rw [Analysis.rhs_eq hrule] at hl
      obtain ⟨trees, more, hm, hmore⟩ := hl.parses hprod hrest hahead
      exact ⟨trees, more, hm, fun s hs => by cases hs; exact hmore⟩
  have hstep : RightRewrites a.symbols a.rules (before ++ rule.lhs :: word)
      (before ++ rule.rhs ++ word) := .apply before word hmem hword
  have hback := hparses.rightDerives (before ++ rule.rhs.take d ++ [rule'.lhs]) hword
  rw [hsplit] at hstep
  simp only [List.append_assoc, List.cons_append, List.nil_append] at hstep hback hder
  refine ⟨rule', before ++ rule.rhs.take d, more ++ word, hrule', Nat.zero_le _, ?_,
    hparses.allTerminal.append hword, by simp, hmore⟩
  rw [List.append_assoc]
  exact (hder.tail hstep).trans hback

theorem Reaches.validItem (hprod : a.Productive) (htop : a.Single)
    (h : Reaches a path i d ahead) : ValidItem a path i d ahead := by
  induction h with
  | start hf =>
    obtain ⟨rule, hrule, hlhs⟩ := htop.top
    refine ⟨rule, [], [], hrule, Nat.zero_le _, ?_, .nil, rfl, fun t ht => ?_⟩
    · rw [hlhs]
      exact .refl
    · rw [hf t ht]
      rfl
  | @shift path i d ahead s _ hs ih =>
    obtain ⟨rule, before, word, hrule, -, hder, hword, rfl, hahead⟩ := ih
    rw [Analysis.rhs_eq hrule] at hs
    refine ⟨rule, before, word, hrule, (List.getElem?_eq_some_iff.mp hs).1, hder, hword, ?_, hahead⟩
    rw [List.append_assoc, List.take_add_one, hs, Option.toList_some]
  | predict _ hp ih => exact ih.predict hprod hp

/-! Every rightmost derivation is followed by the items. -/

theorem append_eq_append_cons {s : SymbolId} {front back before after : List SymbolId}
    (h : front ++ back = before ++ s :: after) :
    (∃ rest, front = before ++ s :: rest ∧ after = rest ++ back) ∨
      ∃ rest, before = front ++ rest ∧ back = rest ++ s :: after := by
  rcases List.append_eq_append_iff.mp h with ⟨rest, hb, hback⟩ | ⟨rest, hf, hback⟩
  · exact Or.inr ⟨rest, hb, hback⟩
  · cases rest with
    | nil =>
      rw [List.append_nil] at hf
      exact Or.inr ⟨[], by rw [hf, List.append_nil], hback.symm⟩
    | cons x rest =>
      obtain ⟨rfl, rfl⟩ := List.cons.inj hback
      exact Or.inl ⟨rest, hf, rfl⟩

theorem exists_ahead_between {rest back : List SymbolId} {last : Option SymbolId}
    (hl : ∀ t, ahead = some t → Leads a.symbols a.rules t (rest ++ back) last) :
    ∃ between, (∀ t, between = some t → Leads a.symbols a.rules t back last) ∧
      ∀ t, ahead = some t → Leads a.symbols a.rules t rest between := by
  cases ahead with
  | none => exact ⟨none, by simp, by simp⟩
  | some t =>
    rcases leads_append_iff.mp (hl t rfl) with hs | ⟨hv, hb⟩
    · exact ⟨none, by simp, fun s hs' => by cases hs'; exact Or.inl hs⟩
    · exact ⟨some t, fun s hs => by cases hs; exact hb,
        fun s hs => by cases hs; exact Or.inr ⟨hv, rfl⟩⟩

/-- The items for a nonterminal in a sentential form are reached with what stands before it. -/
theorem Reaches.of_rightDerives (ha : a.Faithful) (htop : a.Single) {form : List SymbolId}
    (h : RightDerives a.symbols a.rules [.start] form) {before after : List SymbolId} {rule : Rule}
    (hform : form = before ++ rule.lhs :: after) (hrule : a.rules[j]? = some rule)
    (hl : ∀ t, ahead = some t → Leads a.symbols a.rules t after (some .finish)) :
    Reaches a before j 0 ahead := by
  induction h generalizing before after rule j ahead with
  | refl =>
    obtain ⟨rfl, hone⟩ | ⟨-, hempty⟩ := List.append_eq_singleton_iff.mp hform.symm
    · obtain ⟨hlhs, rfl⟩ := List.cons.inj hone
      obtain rfl := htop.only j rule hrule hlhs
      refine .start fun t ht => ?_
      rcases hl t ht with hs | ⟨-, he⟩
      · cases hs
      · exact (Option.some.inj he).symm
    · cases hempty
  | tail _ hstep ih =>
    cases hstep with
    | @apply outer front back houter hback =>
      obtain ⟨k, hk⟩ := List.mem_iff_getElem?.mp houter
      rcases append_eq_append_cons hform with ⟨rest, hfront, rfl⟩ | ⟨rest, rfl, hin⟩
      · rcases append_eq_append_cons hfront with ⟨rest', rfl, rfl⟩ | ⟨rest', rfl, hrhs⟩
        · -- the nonterminal stands before the rule that is applied
          have hform' : before ++ rule.lhs :: rest' ++ outer.lhs :: back =
              before ++ rule.lhs :: (rest' ++ outer.lhs :: back) := by simp
          refine ih hform' hrule fun t ht => ?_
          exact Leads.undo houter (by simpa using hl t ht)
        · -- the rule that is applied puts the nonterminal in
          obtain ⟨ahead₀, hahead₀, hrest⟩ := exists_ahead_between hl
          have hr : Reaches a front k 0 ahead₀ := ih rfl hk hahead₀
          have hdrop : (a.rhs k).drop 0 = rest' ++ rule.lhs :: rest := by
            rw [Analysis.rhs_eq hk, hrhs, List.drop_zero]
          obtain ⟨hr', hd'⟩ := hr.advance hdrop
          refine hr'.predict ⟨rule, hrule, ?_, fun t ht => ?_⟩
          · rw [← List.head?_drop, hd', List.head?_cons]
          · rw [← List.tail_drop, hd', List.tail_cons]
            exact hrest t ht
      · -- behind the rule that is applied there are terminals only
        have hmem : rule.lhs ∈ back := by simp [hin]
        have hterm := hback _ hmem
        rw [ha.nonterminal hrule] at hterm
        cases hterm

theorem leads_of_head? {word : List SymbolId} {t : SymbolId} (hw : AllTerminal a.symbols word)
    (h : (word ++ [SymbolId.finish]).head? = some t) :
    Leads a.symbols a.rules t word (some .finish) := by
  cases word with
  | nil => exact Or.inr ⟨.nil, h⟩
  | cons s word =>
    obtain rfl : s = t := Option.some.inj h
    exact Or.inl (.head (hw s List.mem_cons_self))

theorem ValidItem.reaches (ha : a.Faithful) (htop : a.Single) (h : ValidItem a path i d ahead) :
    Reaches a path i d ahead := by
  obtain ⟨rule, before, word, hrule, hd, hder, hword, rfl, hahead⟩ := h
  have hr : Reaches a before i 0 ahead :=
    .of_rightDerives ha htop hder rfl hrule fun t ht => leads_of_head? hword (hahead t ht)
  have hdrop : (a.rhs i).drop 0 = rule.rhs.take d ++ rule.rhs.drop d := by
    rw [Analysis.rhs_eq hrule, List.drop_zero, List.take_append_drop]
  have hlen : (rule.rhs.take d).length = d := List.length_take_of_le hd
  have hh := (hr.advance hdrop).1
  rwa [Nat.zero_add, hlen] at hh

theorem reaches_iff_validItem (ha : a.Faithful) (hprod : a.Productive) (htop : a.Single) :
    Reaches a path i d ahead ↔ ValidItem a path i d ahead :=
  ⟨fun h => h.validItem hprod htop, fun h => h.reaches ha htop⟩

theorem exists_reaches_iff_viable (ha : a.Faithful) (hprod : a.Productive) (htop : a.Single) :
    (∃ i d ahead, Reaches a path i d ahead) ↔ Viable a.symbols a.rules path := by
  constructor
  · rintro ⟨i, d, ahead, h⟩
    obtain ⟨rule, before, word, hrule, -, hder, hword, rfl, -⟩ := h.validItem hprod htop
    refine ⟨rule, List.mem_of_getElem? hrule, before, word, hder, hword, ?_⟩
    exact (List.prefix_append_right_inj before).mpr (List.take_prefix d rule.rhs)
  · rintro ⟨rule, hmem, before, word, hder, hword, hpre⟩
    obtain ⟨i, hi⟩ := List.mem_iff_getElem?.mp hmem
    have hv : ValidItem a (before ++ rule.rhs) i rule.rhs.length none :=
      ⟨rule, before, word, hi, Nat.le_refl _, hder, hword, by simp, fun _ h => by cases h⟩
    obtain ⟨more, hmore⟩ := hpre
    have hr := hv.reaches ha htop
    rw [← hmore] at hr
    exact hr.exists_of_append

end CanonicalLR
