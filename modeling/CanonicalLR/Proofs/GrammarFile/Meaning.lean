import CanonicalLR.Proofs.GrammarFile.Names
import Mathlib.Data.Finset.Card

/-! What a grammar file means. Its registry holds the symbols that the file mentions, as long as
there is room for them, and its grammar has the rules, the start symbol and the levels that stand in
the file. -/

namespace CanonicalLR.GrammarFile

variable {file : GrammarFile} {r r' : Registry} {s : SymbolId} {sym : Symbol} {part other : Part}
  {ps : List Part}

/-! The symbols of the parts. -/

theorem written_names_nodup : (Terminal.written.map (·.type.defaultName)).Nodup := by
  decide +kernel

theorem written_types_nodup : (Terminal.written.map (·.type)).Nodup := by decide +kernel

section Apart

variable (h : part.isWritten = true) (h' : other.isWritten = true)
include h h'

theorem eq_of_name (he : other.symbol.name = part.symbol.name) : other = part := by
  have hproper := isProper_of_isWritten h
  have hproper' := isProper_of_isWritten h'
  cases part with
  | terminal t =>
    cases other with
    | terminal t' =>
      have hmem := List.contains_iff_mem.mp h
      have hmem' := List.contains_iff_mem.mp h'
      exact congrArg Part.terminal (List.inj_on_of_nodup_map written_names_nodup hmem' hmem he)
    | nonterminal name =>
      obtain rfl : name = t.type.defaultName := he
      simp only [Part.isProper, Bool.not_eq_true'] at hproper hproper'
      cases hproper.symm.trans hproper'
  | nonterminal name =>
    cases other with
    | terminal t =>
      obtain rfl : t.type.defaultName = name := he
      simp only [Part.isProper, Bool.not_eq_true'] at hproper hproper'
      cases hproper.symm.trans hproper'
    | nonterminal name' => exact congrArg Part.nonterminal he

theorem eq_of_kind (hterminal : part.symbol.isTerminal = true)
    (he : other.symbol.kind = part.symbol.kind) : other = part := by
  cases part with
  | nonterminal name => cases hterminal
  | terminal t =>
    cases other with
    | nonterminal name => cases he
    | terminal t' =>
      have hmem := List.contains_iff_mem.mp h
      have hmem' := List.contains_iff_mem.mp h'
      have htype : t'.type = t.type := SymbolKind.terminal.inj he
      exact congrArg Part.terminal (List.inj_on_of_nodup_map written_types_nodup hmem' hmem htype)

end Apart

/-- No part has the name of a symbol that is always there, or the type of the end. -/
theorem apart_of_new (h : part.isWritten = true) (hsym : sym ∈ Registry.new.symbols) :
    sym.name ≠ part.symbol.name ∧
      (part.symbol.isTerminal = true → sym.kind ≠ part.symbol.kind) := by
  cases part with
  | terminal t =>
    have hall : ∀ t ∈ Terminal.written, ∀ sym ∈ Registry.new.symbols,
        sym.name ≠ t.type.defaultName ∧ sym.kind ≠ .terminal t.type := by decide +kernel
    obtain ⟨hname, hkind⟩ := hall t (List.contains_iff_mem.mp h) sym hsym
    exact ⟨hname, fun _ => hkind⟩
  | nonterminal name =>
    have hall : ∀ sym ∈ Registry.new.symbols, isCapitalised sym.name = false := by decide +kernel
    refine ⟨?_, nofun⟩
    rintro rfl
    cases (hall sym hsym).symm.trans h

/-- The registry holds the symbols of the parts and those that are always there. -/
structure Registers (ps : List Part) (r : Registry) : Prop where
  built : r.Built
  written : ∀ part ∈ ps, part.isWritten = true
  mem : ∀ sym, sym ∈ r.symbols ↔ sym ∈ Registry.new.symbols ∨ sym ∈ ps.map Part.symbol

namespace Registers

variable (h : Registers ps r)
include h

theorem eq_symbol (hpart : part.isWritten = true) (hsym : sym ∈ r.symbols)
    (he : sym.name = part.symbol.name ∨
      part.symbol.isTerminal = true ∧ sym.kind = part.symbol.kind) : sym = part.symbol := by
  rcases (h.mem sym).mp hsym with hnew | hmem
  · obtain ⟨hname, hkind⟩ := apart_of_new hpart hnew
    rcases he with he | ⟨hterminal, he⟩
    · exact absurd he hname
    · exact absurd he (hkind hterminal)
  · obtain ⟨other, hother, rfl⟩ := List.mem_map.mp hmem
    have hwritten := h.written other hother
    rcases he with he | ⟨hterminal, he⟩
    · rw [eq_of_name hpart hwritten he]
    · rw [eq_of_kind hpart hwritten hterminal he]

theorem not_clashes (hpart : part.isWritten = true) : ¬ r.Clashes part.symbol := by
  rintro ⟨sym, hsym, ⟨hname, hkind⟩ | ⟨hname, hkind, hterminal⟩⟩
  · exact hkind (congrArg Symbol.kind (h.eq_symbol hpart hsym (Or.inl hname)))
  · exact hname (congrArg Symbol.name (h.eq_symbol hpart hsym (Or.inr ⟨hterminal, hkind⟩)))

theorem size_eq : r.size = 2 + ps.toFinset.card := by
  have hnodup : r.symbols.Nodup := h.built.consistent.names.of_map
  have hset : r.symbols.toFinset = Registry.new.symbols.toFinset ∪ ps.toFinset.image Part.symbol := by
    ext sym
    simp [h.mem sym]
  have hdisjoint : Disjoint Registry.new.symbols.toFinset (ps.toFinset.image Part.symbol) := by
    rw [Finset.disjoint_left]
    intro sym hnew hmem
    obtain ⟨part, hpart, rfl⟩ := Finset.mem_image.mp hmem
    exact (apart_of_new (h.written part (List.mem_toFinset.mp hpart)) (List.mem_toFinset.mp hnew)).1
      rfl
  have hinj : Set.InjOn Part.symbol ps.toFinset := by
    intro part hpart other hother he
    simp only [List.coe_toFinset, Set.mem_ofPred_eq] at hpart hother
    exact eq_of_name (h.written other hother) (h.written part hpart) (congrArg Symbol.name he)
  have hnew : Registry.new.symbols.toFinset.card = 2 := by decide +kernel
  rw [Registry.size, ← List.toFinset_card_of_nodup hnodup, hset,
    Finset.card_union_of_disjoint hdisjoint, hnew, Finset.card_image_of_injOn hinj]

theorem append (hpart : part.isWritten = true) (hr' : r'.Built)
    (hmem : ∀ sym, sym ∈ r'.symbols ↔ sym ∈ r.symbols ∨ sym = part.symbol) :
    Registers (ps ++ [part]) r' where
  built := hr'
  written := by
    intro other hother
    rcases List.mem_append.mp hother with hother | hother
    · exact h.written other hother
    · rwa [List.mem_singleton.mp hother]
  mem := by
    intro sym
    rw [hmem, h.mem, List.map_append, List.mem_append, List.map_singleton, List.mem_singleton,
      or_assoc]

end Registers

/-! Registering the parts. -/

theorem Registers.step (h : Registers ps r) (hpart : part.isWritten = true) :
    (∃ s r', registerPart r part = .ok (s, r') ∧ Registers (ps ++ [part]) r') ∨
      (registerPart r part = .error .tooManySymbols ∧ 62 < (ps ++ [part]).toFinset.card) := by
  have hanswers := answers_registerPart h.built.sound part
  generalize hresult : registerPart r part = result at hanswers
  cases hanswers with
  | found hs =>
    have hmem := List.mem_of_getElem? hs
    refine Or.inl ⟨_, _, rfl, h.append hpart h.built fun sym => ?_⟩
    exact ⟨Or.inl, fun hsym => hsym.elim id fun he => he ▸ hmem⟩
  | added hsize hfresh =>
    exact Or.inl ⟨_, _, rfl, h.append hpart (built_registerPart h.built hresult) fun sym => by simp⟩
  | clash hclash => exact absurd hclash (h.not_clashes hpart)
  | full hfresh hsize =>
    have hnew := (h.built.sound.not_clashes_of_fresh hfresh).2
    have hnotMem : part ∉ ps.toFinset := fun hmem =>
      hnew ((h.mem _).mpr (Or.inr (List.mem_map_of_mem (List.mem_toFinset.mp hmem))))
    refine Or.inr ⟨rfl, ?_⟩
    have hcard : (ps ++ [part]).toFinset.card = ps.toFinset.card + 1 := by
      rw [List.toFinset_append, List.toFinset_cons, List.toFinset_nil, Finset.union_comm,
        Finset.insert_union, Finset.empty_union, Finset.card_insert_of_notMem hnotMem]
    have hfull : 2 + ps.toFinset.card = 64 := h.size_eq.symm.trans hsize
    omega

theorem Registers.all (h : Registers ps r) {more : List Part}
    (hmore : ∀ part ∈ more, part.isWritten = true) :
    (∃ r', registerAll r more = (.ok (), r') ∧ Registers (ps ++ more) r') ∨
      ((registerAll r more).1 = .error .tooManySymbols ∧ 62 < (ps ++ more).toFinset.card) := by
  induction more generalizing ps r with
  | nil => exact Or.inl ⟨r, rfl, by rwa [List.append_nil]⟩
  | cons part more ih =>
    rw [List.forall_mem_cons] at hmore
    rcases h.step hmore.1 with ⟨s, r', hok, hr'⟩ | ⟨herror, hcard⟩
    · simp only [registerAll, hok]
      simpa using ih hr' hmore.2
    · refine Or.inr ⟨by simp only [registerAll, herror], hcard.trans_le (Finset.card_le_card ?_)⟩
      intro other hother
      simp only [List.mem_toFinset, List.mem_append, List.mem_singleton] at hother
      rcases hother with hother | rfl <;> simp [*]

theorem registers_new : Registers [] .new :=
  ⟨.new, by simp, by simp⟩

/-- The symbols of a file fit into a registry if there are at most 62. -/
theorem Written.symbols_cases (h : file.Written) :
    (∃ r, file.symbols = .ok r ∧ Registers file.parts r ∧ file.parts.toFinset.card ≤ 62) ∨
      (file.symbols = .error .tooManySymbols ∧ 62 < file.parts.toFinset.card) := by
  unfold symbols registration
  rcases registers_new.all h.parts with ⟨r, hall, hr⟩ | ⟨hall, hcard⟩
  · rw [hall]
    rw [List.nil_append] at hr
    have hsize : r.size ≤ 64 := hr.built.sound.size_le
    rw [hr.size_eq] at hsize
    exact Or.inl ⟨r, rfl, hr, by omega⟩
  · rcases hresult : registerAll .new file.parts with ⟨answer, r⟩
    rw [hresult] at hall
    obtain rfl : answer = .error .tooManySymbols := hall
    exact Or.inr ⟨rfl, hcard⟩

/-! Looking up the parts. -/

namespace Registers

variable (h : Registers ps r)
include h

theorem findPart_iff (hpart : part.isWritten = true) :
    findPart r part = .ok s ↔ r.get? s = some part.symbol := by
  have hconsistent := h.built.consistent
  have hunique : ∀ {sym}, r.get? s = some sym → (sym.name = part.symbol.name ∨
      part.symbol.isTerminal = true ∧ sym.kind = part.symbol.kind) →
      r.get? s = some part.symbol :=
    fun hs he => h.eq_symbol hpart (List.mem_of_getElem? hs) he ▸ hs
  cases part with
  | terminal t =>
    have hfind : findPart r (.terminal t) = .ok s ↔ r.byType? t.type = some s := by
      simp only [findPart, findTerminal]
      cases r.byType? t.type <;> simp
    rw [hfind, hconsistent.byType]
    constructor
    · rintro ⟨name, hs⟩
      exact hunique hs (Or.inr ⟨rfl, rfl⟩)
    · exact fun hs => ⟨_, hs⟩
  | nonterminal name =>
    have hfind : findPart r (.nonterminal name) = .ok s ↔ r.byName? name = some s := by
      simp only [findPart, findName]
      cases r.byName? name <;> simp
    rw [hfind, hconsistent.byName]
    constructor
    · rintro ⟨kind, hs⟩
      exact hunique hs (Or.inl rfl)
    · exact fun hs => ⟨_, hs⟩

theorem exists_findPart (hpart : part ∈ ps) : ∃ s, findPart r part = .ok s := by
  have hmem : part.symbol ∈ r.symbols := (h.mem _).mpr (Or.inr (List.mem_map_of_mem hpart))
  obtain ⟨s, hs⟩ := h.built.sound.exists_get? hmem
  exact ⟨s, (h.findPart_iff (h.written part hpart)).mpr hs⟩

theorem findName_cases {name : String} (hname : isCapitalised name = true) :
    (.nonterminal name ∈ ps ∧ ∃ s, findName r name = .ok s ∧
      r.get? s = some ⟨name, .nonterminal⟩) ∨
      (.nonterminal name ∉ ps ∧ findName r name = .error (.unknownSymbol name)) := by
  have hwritten : Part.isWritten (.nonterminal name) = true := hname
  by_cases hmem : .nonterminal name ∈ ps
  · obtain ⟨s, hs⟩ := h.exists_findPart hmem
    exact Or.inl ⟨hmem, s, hs, (h.findPart_iff hwritten).mp hs⟩
  · refine Or.inr ⟨hmem, ?_⟩
    cases hfound : findName r name with
    | error e =>
      unfold findName at hfound
      split at hfound
      · cases hfound
      · cases hfound
        rfl
    | ok s =>
      have hs := (h.findPart_iff hwritten).mp hfound
      rcases (h.mem _).mp (List.mem_of_getElem? hs) with hnew | hsym
      · exact absurd rfl (apart_of_new hwritten hnew).1
      · obtain ⟨part, hpart, he⟩ := List.mem_map.mp hsym
        have hsame := eq_of_name hwritten (h.written part hpart) (congrArg Symbol.name he)
        exact absurd (hsame ▸ hpart) hmem

/-! Rules. -/

theorem exists_ruleOf {p : Production}
    (hp : ∀ part ∈ Part.nonterminal p.lhs :: p.rhs, part ∈ ps) (i : Nat) :
    ∃ rule, ruleOf r p i = .ok rule := by
  rw [List.forall_mem_cons] at hp
  obtain ⟨lhs, hlhs⟩ : ∃ s, findName r p.lhs = .ok s := h.exists_findPart hp.1
  obtain ⟨rhs, hrhs⟩ := exists_mapM_ok fun part hpart => h.exists_findPart (hp.2 part hpart)
  refine ⟨⟨i + 1, lhs, rhs, p.prec, 0⟩, ?_⟩
  rw [ruleOf, hlhs, hrhs]
  rfl

theorem ruleOf_ok {p : Production} (hp : ∀ part ∈ Part.nonterminal p.lhs :: p.rhs, part ∈ ps)
    {i : Nat} {rule : Rule} (hrule : ruleOf r p i = .ok rule) : rule.id = i + 1 ∧
      r.get? rule.lhs = some ⟨p.lhs, .nonterminal⟩ ∧
      rule.rhs.map r.get? = p.rhs.map (fun part => some part.symbol) ∧ rule.prec = p.prec := by
  rw [List.forall_mem_cons] at hp
  obtain ⟨lhs, hlhs, hrule⟩ := bind_ok hrule
  obtain ⟨rhs, hrhs, hrule⟩ := bind_ok hrule
  cases hrule
  refine ⟨rfl, (h.findPart_iff (h.written _ hp.1)).mp hlhs, ?_, rfl⟩
  have hall := List.forall₂_iff_get.mp (mapM_ok hrhs)
  refine List.ext_getElem (by simp [hall.1]) fun j hj hj' => ?_
  rw [List.length_map] at hj hj'
  have hmem : p.rhs[j] ∈ ps := hp.2 _ (List.getElem_mem hj')
  simpa using (h.findPart_iff (h.written _ hmem)).mp (hall.2 j hj' hj)

end Registers

/-! What is wrong with a file. -/

/-- The nonterminal stands in the production, and no production is for it. -/
def Underived (file : GrammarFile) (p : Production) (name : String) : Prop :=
  p ∈ file.productions ∧ .nonterminal name ∈ p.rhs ∧ ∀ q ∈ file.productions, q.lhs ≠ name

/-- The name is declared to be the start symbol and occurs in no production. -/
def Stray (file : GrammarFile) (name : String) : Prop :=
  file.start = some name ∧ ∀ p ∈ file.productions, p.lhs ≠ name ∧ .nonterminal name ∉ p.rhs

inductive Fault (file : GrammarFile) : GrammarFileError → Prop where
  | underived {p : Production} {name : String} : file.Underived p name →
      Fault file (.inLine p.line (.noRulesFor name))
  | stray {name : String} : file.Stray name → Fault file (.unknownSymbol name)

theorem underived?_eq_some {p : Production} {name : String} (h : file.underived? p = some name) :
    .nonterminal name ∈ p.rhs ∧ ∀ q ∈ file.productions, q.lhs ≠ name := by
  obtain ⟨part, hpart, hsome⟩ := List.exists_of_findSome?_eq_some h
  cases part with
  | terminal t => cases hsome
  | nonterminal name' =>
    simp only at hsome
    split_ifs at hsome with hany
    obtain rfl := Option.some.inj hsome
    exact ⟨hpart, fun q hq he => hany (List.any_eq_true.mpr ⟨q, hq, by simpa using he⟩)⟩

theorem underived?_eq_none {p : Production} (h : file.underived? p = none) {name : String}
    (hname : .nonterminal name ∈ p.rhs) : ∃ q ∈ file.productions, q.lhs = name := by
  have hpart := List.findSome?_eq_none_iff.mp h _ hname
  simpa using hpart

theorem checkDerived_cases (file : GrammarFile) :
    (file.checkDerived = .ok () ∧ ∀ p name, ¬ file.Underived p name) ∨
      ∃ p name, file.Underived p name ∧
        file.checkDerived = .error (.inLine p.line (.noRulesFor name)) := by
  unfold checkDerived
  split
  · next line name hfound =>
    obtain ⟨p, hp, hsome⟩ := List.exists_of_findSome?_eq_some hfound
    obtain ⟨name', hname, heq⟩ := Option.map_eq_some_iff.mp hsome
    cases heq
    obtain ⟨hmem, hno⟩ := underived?_eq_some hname
    exact Or.inr ⟨p, name, ⟨hp, hmem, hno⟩, rfl⟩
  · next hnone =>
    refine Or.inl ⟨rfl, ?_⟩
    rintro p name ⟨hp, hmem, hno⟩
    have hp' := List.findSome?_eq_none_iff.mp hnone p hp
    obtain ⟨q, hq, he⟩ := underived?_eq_none (Option.map_eq_none_iff.mp hp') hmem
    exact hno q hq he

theorem mem_parts {name : String} : .nonterminal name ∈ file.parts ↔
    ∃ p ∈ file.productions, p.lhs = name ∨ .nonterminal name ∈ p.rhs := by
  simp [parts, eq_comm]

/-! Levels. -/

/-- The last declaration with a terminal that the symbol is. -/
def lastListing? (r : Registry) (ds : List Declaration) (s : SymbolId) : Option Declaration :=
  ds.reverse.find? fun d => d.terminals.any fun t => r.get? s = some (Part.symbol (.terminal t))

theorem lastListing?_cons (r : Registry) (d : Declaration) (ds : List Declaration) (s : SymbolId) :
    lastListing? r (d :: ds) s = (lastListing? r ds s).or
      (if ∃ t ∈ d.terminals, r.get? s = some (Part.symbol (.terminal t)) then some d else none) := by
  rw [lastListing?, List.reverse_cons, List.find?_append, lastListing?]
  congr 1
  by_cases hd : ∃ t ∈ d.terminals, r.get? s = some (Part.symbol (.terminal t))
  · rw [if_pos hd, List.find?_singleton, if_pos (by simpa using hd)]
  · rw [if_neg hd, List.find?_singleton, if_neg (by simpa using hd)]

/-- Declarations in turn: for each symbol the last one counts. -/
theorem Registers.exists_declared (h : Registers ps r) {ds : List Declaration}
    (hds : ∀ d ∈ ds, ∀ t ∈ d.terminals, .terminal t ∈ ps) {g : Grammar} (hg : g.symbols = r) :
    ∃ g', ds.foldlM applyDeclaration g = .ok g' ∧ g'.symbols = r ∧ g'.rules = g.rules ∧
      g'.start = g.start ∧ ∀ s,
      g'.precedence? s = ((lastListing? r ds s).map (·.level)).or (g.precedence? s) ∧
      g'.assoc? s = ((lastListing? r ds s).map (·.assoc)).or (g.assoc? s) := by
  induction ds generalizing g with
  | nil => exact ⟨g, rfl, hg, rfl, rfl, fun s => ⟨rfl, rfl⟩⟩
  | cons d ds ih =>
    rw [List.forall_mem_cons] at hds
    obtain ⟨ids, hids⟩ : ∃ ids, d.terminals.mapM (findTerminal r) = .ok ids :=
      exists_mapM_ok fun t ht => h.exists_findPart (hds.1 t ht)
    have happly : applyDeclaration g d = .ok (g.declare d.assoc d.level ids) := by
      rw [applyDeclaration, hg, hids]
      rfl
    obtain ⟨hsymbols, hrules, hstart⟩ := g.declare_keeps d.assoc d.level ids
    obtain ⟨g', hok, hsymbols', hrules', hstart', hlevels⟩ := ih hds.2 (hsymbols.trans hg)
    refine ⟨g', ?_, hsymbols', hrules'.trans hrules, hstart'.trans hstart, fun s => ?_⟩
    · rw [List.foldlM_cons, happly]
      exact hok
    · have hmem : s ∈ ids ↔ ∃ t ∈ d.terminals, r.get? s = some (Part.symbol (.terminal t)) := by
        constructor
        · intro hs
          obtain ⟨t, ht, hfind⟩ := exists_of_mem_mapM hids hs
          exact ⟨t, ht, (h.findPart_iff (h.written _ (hds.1 t ht))).mp hfind⟩
        · rintro ⟨t, ht, hs⟩
          have hfind : findTerminal r t = .ok s :=
            (h.findPart_iff (h.written _ (hds.1 t ht))).mpr hs
          obtain ⟨s', hs', hfind'⟩ := exists_mem_of_mapM hids ht
          cases hfind.symm.trans hfind'
          exact hs'
      obtain ⟨hlevel, hassoc⟩ := g.levels_declare d.assoc d.level ids s
      rw [(hlevels s).1, (hlevels s).2, hlevel, hassoc, lastListing?_cons]
      by_cases hs : s ∈ ids
      · rw [if_pos hs, if_pos hs, if_pos (hmem.mp hs)]
        cases lastListing? r ds s <;> simp
      · rw [if_neg hs, if_neg hs, if_neg fun hlists => hs (hmem.mpr hlists)]
        simp

/-! Grammars. -/

theorem rules_setStart_addRules (r : Registry) (rules : List Rule) (s : SymbolId) :
    ((rules.foldl Grammar.addRule (.new r)).setStart s).rules =
      { id := 0, lhs := .start, rhs := [s] } ::
        rules.mapIdx fun i rule => { rule with index := i + 1 } := by
  simp [Grammar.setStart, Grammar.reset, Grammar.addRules_rules, Grammar.new, Nat.add_comm 1]

theorem levels_setStart_addRules (r : Registry) (rules : List Rule) (s s' : SymbolId) :
    ((rules.foldl Grammar.addRule (.new r)).setStart s).precedence? s' = none ∧
      ((rules.foldl Grammar.addRule (.new r)).setStart s).assoc? s' = none := by
  have hrules : ∀ g : Grammar, (rules.foldl Grammar.addRule g).precedence? s' = g.precedence? s' ∧
      (rules.foldl Grammar.addRule g).assoc? s' = g.assoc? s' := by
    induction rules with
    | nil => exact fun g => ⟨rfl, rfl⟩
    | cons rule rules ih => exact fun g => ih (g.addRule rule)
  exact hrules (.new r)

/-- The grammar is the one that the file describes. -/
structure Describes (file : GrammarFile) (r : Registry) (g : Grammar) : Prop where
  symbols : g.symbols = r
  length : g.rules.length = file.productions.length + 1
  rules : ∀ i p, file.productions[i]? = some p → ∃ rule, g.rules[i + 1]? = some rule ∧
    rule.id = i + 1 ∧ rule.index = i + 1 ∧ r.get? rule.lhs = some ⟨p.lhs, .nonterminal⟩ ∧
    rule.rhs.map r.get? = p.rhs.map (fun part => some part.symbol) ∧ rule.prec = p.prec
  start : ∃ s name, file.start.or (file.productions.head?.map (·.lhs)) = some name ∧
    r.get? s = some ⟨name, .nonterminal⟩ ∧ g.start = some s ∧
    g.rules[0]? = some { id := 0, lhs := .start, rhs := [s] }
  precedence : ∀ s, g.precedence? s = (lastListing? r file.declarations s).map (·.level)
  assoc : ∀ s, g.assoc? s = (lastListing? r file.declarations s).map (·.assoc)

namespace Registers

variable (h : Registers file.parts r)
include h

theorem exists_rules : ∃ rules, file.productions.zipIdx.mapM (fun (p, i) => ruleOf r p i) =
    .ok rules := by
  refine exists_mapM_ok fun (p, i) hmem => ?_
  exact h.exists_ruleOf (parts_of_production (List.fst_mem_of_mem_zipIdx hmem)) i

theorem describes {rules : List Rule} {name : String} {g : Grammar}
    (hrules : file.productions.zipIdx.mapM (fun (p, i) => ruleOf r p i) = .ok rules)
    (hname : file.startSymbol? = some name) (hs : r.get? s = some ⟨name, .nonterminal⟩)
    (hg : file.declarations.foldlM applyDeclaration
      ((rules.foldl Grammar.addRule (.new r)).setStart s) = .ok g) : file.Describes r g := by
  have hkeeps := Grammar.addRules_keeps (.new r) rules
  obtain ⟨g', hok, hsymbols, hrules', hstart, hlevels⟩ := h.exists_declared
    (fun d hd => parts_of_declaration hd)
    (g := (rules.foldl Grammar.addRule (.new r)).setStart s) hkeeps.1
  cases hg.symm.trans hok
  rw [rules_setStart_addRules] at hrules'
  have hall := mapM_ok hrules
  have hlen : rules.length = file.productions.length := by
    rw [← hall.length_eq, List.length_zipIdx]
  have hnone := levels_setStart_addRules r rules s
  refine ⟨hsymbols, by simp [hrules', hlen], fun i p hp => ?_, ?_, fun s' => ?_, fun s' => ?_⟩
  · obtain ⟨hi, rfl⟩ := List.getElem?_eq_some_iff.mp hp
    have hi' : i < rules.length := hlen ▸ hi
    have hrule := hall.get (i := i) (by simpa using hi) hi'
    simp only [List.get_eq_getElem, List.getElem_zipIdx, Nat.zero_add] at hrule
    obtain ⟨hid, hlhs, hrhs, hprec⟩ := h.ruleOf_ok (parts_of_production (List.getElem_mem hi)) hrule
    refine ⟨{ rules[i] with index := i + 1 }, ?_, hid, rfl, hlhs, hrhs, hprec⟩
    simp [hrules', hi']
  · exact ⟨s, name, hname, hs, hstart, by rw [hrules']; rfl⟩
  · rw [(hlevels s').1, (hnone s').1, Option.or_none]
  · rw [(hlevels s').2, (hnone s').2, Option.or_none]

end Registers

/-- The grammar of a file fails for a fault of the file, or it is as the file describes it and the
file has no fault. -/
theorem Written.grammar_cases (hfile : file.Written) (hne : file.productions ≠ [])
    (h : Registers file.parts r) :
    (∃ e, file.grammar r = .error e ∧ file.Fault e) ∨
      ∃ g, file.grammar r = .ok g ∧ file.Describes r g ∧ (∀ p name, ¬ file.Underived p name) ∧
        ∀ name, ¬ file.Stray name := by
  obtain ⟨rules, hrules⟩ := h.exists_rules
  obtain ⟨name, hname⟩ : ∃ name, file.startSymbol? = some name := by
    obtain ⟨p, rest, hp⟩ := List.exists_cons_of_ne_nil hne
    cases hstart : file.start <;> simp [startSymbol?, hstart, hp]
  have hgrammar : file.grammar r = file.checkDerived >>= fun _ => findName r name >>= fun s =>
      file.declarations.foldlM applyDeclaration
        ((rules.foldl Grammar.addRule (.new r)).setStart s) := by
    rw [grammar, hrules, hname]
    rfl
  rcases file.checkDerived_cases with ⟨hchecked, hderived⟩ | ⟨p, missing, hunderived, herror⟩
  · rcases h.findName_cases (isCapitalised_of_startSymbol? hfile.proper hname) with
      ⟨hmem, s, hfind, hs⟩ | ⟨hnotMem, hfind⟩
    · rw [hchecked, hfind] at hgrammar
      obtain ⟨g, hok, -⟩ := h.exists_declared (fun d hd => parts_of_declaration hd)
        (g := (rules.foldl Grammar.addRule (.new r)).setStart s)
        (Grammar.addRules_keeps (.new r) rules).1
      refine Or.inr ⟨g, hgrammar.trans hok, h.describes hrules hname hs hok, hderived, ?_⟩
      rintro stray ⟨hstart, hno⟩
      obtain rfl : stray = name := by simpa [startSymbol?, hstart] using hname
      obtain ⟨p, hp, hoccurs⟩ := mem_parts.mp hmem
      exact hoccurs.elim (hno p hp).1 (hno p hp).2
    · rw [hchecked, hfind] at hgrammar
      refine Or.inl ⟨_, hgrammar, .stray ⟨?_, fun p hp => ⟨?_, ?_⟩⟩⟩
      · rcases Option.or_eq_some_iff.mp hname with hstart | ⟨-, hfirst⟩
        · exact hstart
        · obtain ⟨p, hp, rfl⟩ := Option.map_eq_some_iff.mp hfirst
          exact absurd (mem_parts.mpr ⟨p, List.mem_of_head? hp, Or.inl rfl⟩) hnotMem
      · exact fun he => hnotMem (mem_parts.mpr ⟨p, hp, Or.inl he⟩)
      · exact fun hrhs => hnotMem (mem_parts.mpr ⟨p, hp, Or.inr hrhs⟩)
  · rw [herror] at hgrammar
    exact Or.inl ⟨_, hgrammar, .underived hunderived⟩

/-- A file that can be read has a registry unless it mentions more than 62 symbols, and a grammar
unless it has a nonterminal without production or a start symbol that occurs nowhere else. The
grammar is as the file describes it. -/
theorem grammar_of_parse {source : String} (h : parse source = .ok file) :
    (∀ e, file.symbols = .error e → e = .tooManySymbols) ∧
    ((∃ e, file.symbols = .error e) ↔ 62 < file.parts.toFinset.card) ∧
    ∀ r, file.symbols = .ok r →
      ((∃ e, file.grammar r = .error e) ↔
        (∃ p name, file.Underived p name) ∨ ∃ name, file.Stray name) ∧
      (∀ e, file.grammar r = .error e → file.Fault e) ∧
      ∀ g, file.grammar r = .ok g → file.Describes r g := by
  obtain ⟨hfile, hne⟩ := written_of_parse h
  rcases hfile.symbols_cases with ⟨r, hok, hr, hcard⟩ | ⟨herror, hcard⟩
  · refine ⟨?_, ?_, ?_⟩
    · intro e he
      cases hok.symm.trans he
    · refine ⟨fun ⟨e, he⟩ => ?_, fun hlt => absurd hlt (Nat.not_lt.mpr hcard)⟩
      cases hok.symm.trans he
    · intro r' hr'
      cases hok.symm.trans hr'
      rcases hfile.grammar_cases hne hr with ⟨e, he, hfault⟩ | ⟨g, hg, hdescribes, hderived, hstray⟩
      · refine ⟨⟨fun _ => ?_, fun _ => ⟨e, he⟩⟩, fun e' he' => ?_, fun g hg => ?_⟩
        · cases hfault with
          | underived hunderived => exact Or.inl ⟨_, _, hunderived⟩
          | stray hstray => exact Or.inr ⟨_, hstray⟩
        · cases he.symm.trans he'
          exact hfault
        · cases he.symm.trans hg
      · refine ⟨⟨fun ⟨e, he⟩ => ?_, fun hfault => ?_⟩, fun e he => ?_, fun g' hg' => ?_⟩
        · cases hg.symm.trans he
        · rcases hfault with ⟨p, name, hunderived⟩ | ⟨name, hs⟩
          · exact absurd hunderived (hderived p name)
          · exact absurd hs (hstray name)
        · cases hg.symm.trans he
        · cases hg.symm.trans hg'
          exact hdescribes
  · refine ⟨fun e he => ?_, ⟨fun _ => hcard, fun _ => ⟨_, herror⟩⟩, fun r hr => ?_⟩
    · exact (Except.error.inj (herror.symm.trans he)).symm
    · cases herror.symm.trans hr

/-! A file that declares a terminal twice. -/

def sumText : String := "%left 10 + -\n%right 20 +\nE -> E + E\nE -> int %prec 5\n"

def sumFile : GrammarFile :=
  { declarations := [⟨.left, 10, [.char '+', .char '-']⟩, ⟨.right, 20, [.char '+']⟩]
    productions :=
      [⟨none, "E", [.nonterminal "E", .terminal (.char '+'), .nonterminal "E"], none, 3⟩,
        ⟨none, "E", [.terminal (.kind .int)], some 5, 4⟩] }

def sumRegistry : Registry :=
  ⟨Registry.new.symbols ++
    [⟨"+", .terminal 43⟩, ⟨"-", .terminal 45⟩, ⟨"E", .nonterminal⟩, ⟨"int", .terminal 256⟩]⟩

theorem sum_grammar_of_parse : parse sumText = .ok sumFile ∧ sumFile.symbols = .ok sumRegistry ∧
    ∃ g, sumFile.grammar sumRegistry = .ok g ∧ g.rules.length = 3 ∧
      (g.precedence? 2, g.assoc? 2) = (some 20, some .right) ∧
      (g.precedence? 3, g.assoc? 3) = (some 10, some .left) := by
  have hparse : parse sumText = .ok sumFile := by decide +kernel
  have hsymbols : sumFile.symbols = .ok sumRegistry := by decide +kernel
  have hsome : (sumFile.grammar sumRegistry).toOption.isSome = true := by decide +kernel
  obtain ⟨-, -, hgrammar⟩ := grammar_of_parse hparse
  obtain ⟨-, -, hdescribes⟩ := hgrammar sumRegistry hsymbols
  refine ⟨hparse, hsymbols, ?_⟩
  obtain ⟨g, hg⟩ := Option.isSome_iff_exists.mp hsome
  have hok := toOption_eq_some_iff.mp hg
  have h := hdescribes g hok
  refine ⟨g, hok, h.length, ?_, ?_⟩
  · rw [h.precedence, h.assoc]
    decide +kernel
  · rw [h.precedence, h.assoc]
    decide +kernel

end CanonicalLR.GrammarFile
