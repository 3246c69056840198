import CanonicalLR.Proofs.Calculator.Reprinting
import CanonicalLR.Proofs.Scanner.Yields

/-! The modes of the scanner and the grammar of the calculator. The scanner changes its mode by
single characters and ahead of the parser. Still, in whatever way a text is derived, each token was
scanned in the mode that its place in the derivation asks for. -/

namespace CanonicalLR.Calculator

open Vocabulary Grammar Engine Scanner

/-! The modes that the grammar asks for. -/

/-- Where a reference is closed: behind its name or behind its spec. -/
def closingMode : Tree → Mode
  | .node rule _ => if Form.ofId? rule.id = some .refName then .bracket else .spec
  | .leaf _ => .bracket

/-- The modes of what a rule puts together, where the whole stands in `mode`. A name is followed by
its spec, and a time index stands in a mode of its own. -/
def childModes (mode : Mode) (rule : Rule) (children : List Tree) : List Mode :=
  match Form.ofId? rule.id, children with
  | some .ref, [_, key, _] => [mode, .bracket, closingMode key]
  | some .refName, _ => [.bracket]
  | some .refSpec, _ => [.bracket, .bracket, .spec]
  | some .refTime, _ => [.bracket, .bracket, .spec, .spec, .timeSpec, .timeSpec]
  | _, children => children.map fun _ => mode

mutual

/-- The modes for the leaves of a tree that stands in `mode`, from left to right. -/
def leafModes (mode : Mode) : Tree → List Mode
  | .leaf _ => [mode]
  | .node rule children => forestModes (childModes mode rule children) children

/-- The same for trees side by side, each in its own mode. -/
def forestModes : List Mode → List Tree → List Mode
  | mode :: modes, tree :: trees => leafModes mode tree ++ forestModes modes trees
  | _, _ => []

end

/-! The modes that terminals and trees go through. -/

/-- What a terminal does to the modes. -/
def afterSymbol (modes : List Mode) (s : SymbolId) : List Mode :=
  match (registry.get? s).bind (·.type?) with
  | some type => afterType modes type
  | none => modes

theorem afterSymbol_mark (modes : List Mode) (m : Mark) :
    afterSymbol modes m.symbol = m.after modes := by
  have htype : (registry.get? m.symbol).bind (·.type?) = some m.type := by
    cases m with
    | op o => cases o <;> decide
    | _ => decide
  rw [afterSymbol, htype]
  rfl

theorem modesAfter_of_byType? {t : Token} {s : SymbolId} (h : registry.byType? t.type = some s)
    (modes : List Mode) : modesAfter modes t = afterSymbol modes s := by
  obtain ⟨name, hs⟩ := Registry.get?_of_byType? h
  rw [afterSymbol, hs, modesAfter_eq]
  rfl

/-! What a tree makes of the modes. -/

/-- The modes behind a tree. -/
def passed (modes : List Mode) : Tree → List Mode
  | .leaf s => afterSymbol modes s
  | .node rule _ =>
    match Form.ofId? rule.id with
    | some .refSpec | some .refTime => .spec :: modes.tail
    | _ => modes

/-- What is inside a reference begins in its mode. -/
def Opened (modes : List Mode) : Tree → Prop
  | .leaf _ => True
  | .node rule _ => rule.lhs = reference → modes.headD .normal = .bracket

/-- So it is for each of the trees that stand side by side. -/
def AllOpened : List Mode → List Tree → Prop
  | _, [] => True
  | modes, tree :: trees => Opened modes tree ∧ AllOpened (passed modes tree) trees

/-- What can stand at the root of a tree that is derived: a terminal alone, or a rule. -/
inductive Rooted (rules : List Rule) : Tree → SymbolId → Prop where
  | leaf {s : SymbolId} : registry.isTerminal s = true → Rooted rules (.leaf s) s
  | node {rule : Rule} {children : List Tree} : rule ∈ rules →
      Rooted rules (.node rule children) rule.lhs

theorem rooted_of_parses {rules : List Rule} {trees : List Tree} {roots word : List SymbolId}
    (h : Parses registry rules trees roots word) : List.Forall₂ (Rooted rules) trees roots := by
  induction h with
  | nil => exact .nil
  | leaf hs _ ih => exact .cons (.leaf hs) ih
  | node hr _ _ _ ih => exact .cons (.node hr) ih

/-- The symbols that leave the modes as they are. -/
def plainSymbols : List SymbolId :=
  expr :: (Mark.all.filter fun m => m ∉ [.less, .greater, .colon, .lbracket, .rbracket]).map
    Mark.symbol

/-- The forms that leave the modes to what they are part of. -/
def Form.isPlain : Form → Bool
  | ref | refName | refSpec | refTime => false
  | _ => true

theorem Form.plain_or_reference (f : Form) : f.isPlain = true ∨ f = ref ∨
    f ∈ [refName, refSpec, refTime] ∧ f.sides.1 = reference := by
  cases f <;> decide

variable {p : Int} {g : Grammar} {modes : List Mode} {tree : Tree} {trees children : List Tree}
  {roots word : List SymbolId} {s : SymbolId} {rule : Rule} {f : Form}

theorem childModes_plain (hf : f.isPlain = true) (mode : Mode) (children : List Tree) :
    childModes mode (f.placed p) children = children.map fun _ => mode := by
  unfold childModes
  rw [show Form.ofId? (f.placed p).id = some f from Form.ofId?_id f]
  cases f <;> first | rfl | cases hf

theorem passed_plain (hf : f.isPlain = true) (modes : List Mode) (children : List Tree) :
    passed modes (.node (f.placed p) children) = modes := by
  rw [passed, show Form.ofId? (f.placed p).id = some f from Form.ofId?_id f]
  cases f <;> first | rfl | cases hf

theorem mem_plainSymbols (hf : f.isPlain = true) : ∀ s ∈ f.sides.2, s ∈ plainSymbols := by
  cases f <;> first | decide | cases hf

namespace Ruled

variable (h : Ruled p g)
include h

theorem mem_cases (hmem : rule ∈ g.rules) : rule = topRule ∨ ∃ f : Form, rule = f.placed p := by
  obtain ⟨i, hi⟩ := List.mem_iff_getElem?.mp hmem
  rcases h.cases hi with ⟨-, htop⟩ | ⟨f, -, hf⟩
  · exact Or.inl htop
  · exact Or.inr ⟨f, hf⟩

theorem eq_leaf {m : Mark} (hroot : Rooted g.rules tree m.symbol) : tree = .leaf m.symbol := by
  generalize hs : m.symbol = s at hroot
  cases hroot with
  | leaf => rfl
  | node hmem =>
    have hterminal := isTerminal_symbol m
    rw [hs, h.isTerminal_lhs hmem] at hterminal
    cases hterminal

theorem eq_node (hs : registry.isTerminal s = false) (hroot : Rooted g.rules tree s) :
    s = .start ∨ ∃ (f : Form) (children : List Tree), tree = .node (f.placed p) children ∧
      s = f.sides.1 := by
  cases hroot with
  | leaf hterminal =>
    rw [hs] at hterminal
    cases hterminal
  | node hmem =>
    rcases h.mem_cases hmem with rfl | ⟨f, rfl⟩
    · exact Or.inl rfl
    · exact Or.inr ⟨f, _, rfl, rfl⟩

theorem exists_key (hroot : Rooted g.rules tree reference) : ∃ (f : Form) (children : List Tree),
    tree = .node (f.placed p) children ∧ f ∈ [Form.refName, .refSpec, .refTime] := by
  have hterminal : registry.isTerminal reference = false :=
    Calculator.isTerminal_lhs .refName
  rcases h.eq_node hterminal hroot with hs | ⟨f, children, rfl, hs⟩
  · cases hs
  · exact ⟨f, children, rfl, by cases f <;> first | decide | cases hs⟩

theorem plain_of_mem (hs : s ∈ plainSymbols) (hroot : Rooted g.rules tree s) (modes : List Mode) :
    passed modes tree = modes ∧ Opened modes tree := by
  rcases List.mem_cons.mp hs with rfl | hs
  · have hterminal : registry.isTerminal expr = false := Calculator.isTerminal_lhs .add
    rcases h.eq_node hterminal hroot with hs | ⟨f, children, rfl, hs⟩
    · cases hs
    · have hf : f.isPlain = true ∨ f = .ref := by cases f <;> first | decide | cases hs
      refine ⟨?_, fun hreference => ?_⟩
      · rcases hf with hf | rfl
        · exact passed_plain hf modes children
        · rfl
      · have hsides : f.sides.1 = reference := hreference
        rw [← hs] at hsides
        cases hsides
  · obtain ⟨m, hm, rfl⟩ := List.mem_map.mp hs
    obtain rfl := h.eq_leaf hroot
    have hm' := of_decide_eq_true (List.mem_filter.mp hm).2
    exact ⟨(afterSymbol_mark modes m).trans (Mark.after_inner modes hm'), trivial⟩

theorem plain_of_forall (hroots : List.Forall₂ (Rooted g.rules) trees roots)
    (hplain : ∀ s ∈ roots, s ∈ plainSymbols) (modes : List Mode) :
    AllOpened modes trees ∧
      modesAlong passed modes trees = trees.map (fun _ => modes.headD .normal) ∧
      trees.foldl passed modes = modes := by
  induction hroots with
  | nil => exact ⟨trivial, rfl, rfl⟩
  | cons hroot _ ih =>
    obtain ⟨hs, hrest⟩ := List.forall_mem_cons.mp hplain
    obtain ⟨hpassed, hopened⟩ := h.plain_of_mem hs hroot modes
    obtain ⟨hall, halong, hfold⟩ := ih hrest
    refine ⟨⟨hopened, hpassed.symm ▸ hall⟩, ?_, ?_⟩
    · rw [modesAlong, hpassed, halong]
      rfl
    · rw [List.foldl_cons, hpassed, hfold]

/-- Between its brackets a reference goes from the mode of its name to the one where it closes. -/
theorem along_reference (hroots : List.Forall₂ (Rooted g.rules) children Form.ref.sides.2) :
    AllOpened modes children ∧
      modesAlong passed modes children =
        childModes (modes.headD .normal) (Form.ref.placed p) children ∧
      children.foldl passed modes = modes := by
  rcases hroots with _ | ⟨hless, _ | ⟨hkey, _ | ⟨hgreater, ⟨⟩⟩⟩⟩
  obtain rfl := h.eq_leaf (m := .less) hless
  obtain rfl := h.eq_leaf (m := .greater) hgreater
  obtain ⟨f, below, rfl, hf⟩ := h.exists_key hkey
  have hopen : passed modes (.leaf Mark.less.symbol) = .bracket :: modes :=
    (afterSymbol_mark modes .less).trans (Mark.after_less modes)
  have hkeyed : ∃ mode ∈ [Mode.bracket, .spec], closingMode (.node (f.placed p) below) = mode ∧
      passed (.bracket :: modes) (.node (f.placed p) below) = mode :: modes := by
    simp only [List.mem_cons, List.not_mem_nil, or_false] at hf
    rcases hf with rfl | rfl | rfl
    · exact ⟨.bracket, by decide, rfl, rfl⟩
    · exact ⟨.spec, by decide, rfl, rfl⟩
    · exact ⟨.spec, by decide, rfl, rfl⟩
  obtain ⟨mode, hmode, hclosing, hpassed⟩ := hkeyed
  have hclose : passed (mode :: modes) (.leaf Mark.greater.symbol) = modes := by
    rw [passed, afterSymbol_mark]
    simp only [List.mem_cons, List.not_mem_nil, or_false] at hmode
    rcases hmode with rfl | rfl <;> rfl
  refine ⟨⟨trivial, ?_, trivial, trivial⟩, ?_, ?_⟩
  · rw [hopen]
    exact fun _ => rfl
  · simp only [modesAlong, hopen, hpassed]
    rw [← hclosing]
    rfl
  · simp only [List.foldl_cons, List.foldl_nil, hopen, hpassed, hclose]

theorem along_key (hf : f ∈ [Form.refName, .refSpec, .refTime])
    (hmodes : modes.headD .normal = .bracket)
    (hroots : List.Forall₂ (Rooted g.rules) children f.sides.2) : AllOpened modes children ∧
      modesAlong passed modes children =
        childModes (modes.headD .normal) (f.placed p) children ∧
      children.foldl passed modes = passed modes (.node (f.placed p) children) := by
  obtain ⟨outer, rfl⟩ : ∃ outer, modes = .bracket :: outer := by
    cases modes with
    | nil => cases hmodes
    | cons mode outer => exact ⟨outer, congrArg (· :: outer) hmodes⟩
  have hident : ∀ modes, passed modes (.leaf Mark.ident.symbol) = modes := fun modes =>
    (afterSymbol_mark modes .ident).trans (Mark.after_inner modes (by decide))
  have hcolon : passed (.bracket :: outer) (.leaf Mark.colon.symbol) = .spec :: outer :=
    afterSymbol_mark _ .colon
  simp only [List.mem_cons, List.not_mem_nil, or_false] at hf
  rcases hf with rfl | rfl | rfl
  · rcases hroots with _ | ⟨hname, ⟨⟩⟩
    obtain rfl := h.eq_leaf (m := .ident) hname
    exact ⟨⟨trivial, trivial⟩, rfl, hident _⟩
  · rcases hroots with _ | ⟨hname, _ | ⟨hcolons, _ | ⟨hspec, ⟨⟩⟩⟩⟩
    obtain rfl := h.eq_leaf (m := .ident) hname
    obtain rfl := h.eq_leaf (m := .colon) hcolons
    obtain rfl := h.eq_leaf (m := .ident) hspec
    refine ⟨⟨trivial, trivial, trivial, trivial⟩, ?_, ?_⟩
    · simp only [modesAlong, hident, hcolon]
      rfl
    · simp only [List.foldl_cons, List.foldl_nil, hident, hcolon]
      rfl
  · rcases hroots with _ | ⟨hname, _ | ⟨hcolons, _ | ⟨hspec, _ | ⟨hopens, _ | ⟨htime, _ |
      ⟨hcloses, ⟨⟩⟩⟩⟩⟩⟩⟩
    obtain rfl := h.eq_leaf (m := .ident) hname
    obtain rfl := h.eq_leaf (m := .colon) hcolons
    obtain rfl := h.eq_leaf (m := .ident) hspec
    obtain rfl := h.eq_leaf (m := .lbracket) hopens
    obtain rfl := h.eq_leaf (m := .rbracket) hcloses
    have hopen : passed (.spec :: outer) (.leaf Mark.lbracket.symbol) =
        .timeSpec :: .spec :: outer := afterSymbol_mark _ .lbracket
    have hclose : passed (.timeSpec :: .spec :: outer) (.leaf Mark.rbracket.symbol) =
        .spec :: outer := afterSymbol_mark _ .rbracket
    obtain ⟨hpassed, hopened⟩ :=
      h.plain_of_mem List.mem_cons_self htime (.timeSpec :: .spec :: outer)
    refine ⟨⟨trivial, trivial, trivial, trivial, ?_, trivial, trivial⟩, ?_, ?_⟩
    · simpa only [hident, hcolon, hopen] using hopened
    · simp only [modesAlong, hident, hcolon, hopen, hpassed]
      rfl
    · simp only [List.foldl_cons, List.foldl_nil, hident, hcolon, hopen, hpassed, hclose]
      rfl

/-- The children of a rule meet the modes that the rule has for them. -/
theorem along_rule (hmem : rule ∈ g.rules)
    (hroots : List.Forall₂ (Rooted g.rules) children rule.rhs)
    (hopened : Opened modes (.node rule children)) : AllOpened modes children ∧
      modesAlong passed modes children = childModes (modes.headD .normal) rule children ∧
      children.foldl passed modes = passed modes (.node rule children) := by
  rcases h.mem_cases hmem with rfl | ⟨f, rfl⟩
  · exact h.plain_of_forall hroots (by decide) modes
  · rcases f.plain_or_reference with hf | rfl | ⟨hkey, hlhs⟩
    · rw [childModes_plain hf, passed_plain hf]
      exact h.plain_of_forall hroots (mem_plainSymbols hf) modes
    · exact h.along_reference hroots
    · exact h.along_key hkey (hopened hlhs) hroots

theorem along_leaves (hp : Parses registry g.rules trees roots word)
    (hopened : AllOpened modes trees) :
    modesAlong afterSymbol modes word = forestModes (modesAlong passed modes trees) trees ∧
      word.foldl afterSymbol modes = trees.foldl passed modes := by
  induction hp generalizing modes with
  | nil => exact ⟨by rw [modesAlong, modesAlong, forestModes]; simp, rfl⟩
  | @leaf s trees roots word _ _ ih =>
    obtain ⟨halong, hfold⟩ := ih hopened.2
    rw [passed] at halong
    refine ⟨?_, hfold⟩
    rw [modesAlong, halong, modesAlong, forestModes, leafModes]
    rfl
  | @node rule children trees below roots word hmem hchildren _ ihc ih =>
    obtain ⟨hall, hmodes, hpassed⟩ := h.along_rule hmem (rooted_of_parses hchildren) hopened.1
    obtain ⟨halong, hfold⟩ := ihc hall
    rw [hpassed] at hfold
    obtain ⟨halong', hfold'⟩ := ih (hopened.2)
    refine ⟨?_, ?_⟩
    · rw [modesAlong_append, halong, hmodes, hfold, halong', modesAlong, forestModes, leafModes]
    · rw [List.foldl_append, hfold, hfold']
      rfl

/-- An expression leaves the modes as they were, wherever it stands. -/
theorem along_expr (hp : Parses registry g.rules [tree] [expr] word) (modes : List Mode) :
    modesAlong afterSymbol modes word = leafModes (modes.headD .normal) tree ∧
      word.foldl afterSymbol modes = modes := by
  rcases rooted_of_parses hp with _ | ⟨hroot, -⟩
  obtain ⟨hpassed, hopened⟩ := h.plain_of_mem List.mem_cons_self hroot modes
  obtain ⟨halong, hfold⟩ := h.along_leaves hp ⟨hopened, trivial⟩
  refine ⟨?_, hfold.trans hpassed⟩
  rw [halong, modesAlong, forestModes, modesAlong, forestModes, List.append_nil]
  exact fun _ _ _ _ h => by cases h

end Ruled

/-! Tokens that spell a word. -/

theorem along_spelling {ts : List Token} {word : List SymbolId} (h : Spelling registry ts word) (modes : List Mode) :
    modesAlong modesAfter modes ts = modesAlong afterSymbol modes word ∧
      ts.foldl modesAfter modes = word.foldl afterSymbol modes := by
  induction ts generalizing word modes with
  | nil =>
    obtain rfl : word = [] := List.map_eq_nil_iff.mp h.symm
    exact ⟨rfl, rfl⟩
  | cons t ts ih =>
    obtain ⟨s, word, rfl, hs, hrest⟩ := List.map_eq_cons_iff.mp h.symm
    obtain ⟨halong, hfold⟩ := ih hrest.symm (modesAfter modes t)
    rw [List.foldl_cons, List.foldl_cons, modesAlong, modesAlong, halong, hfold,
      modesAfter_of_byType? hs.symm]
    exact ⟨rfl, rfl⟩

/-! Runs that accept. -/

namespace Calculates

variable {q q' : Parser Scanner Nat} {text : String} {fuel : Nat} {n : Expr} {last : Token × Mode}

theorem start_eq {start : SymbolId} (h : Calculates p (engine g)) (hready : g.Ready start) :
    start = expr := by
  obtain ⟨-, -, -, hstart, -⟩ := configure_ok h.configure
  have hvalid := hready.valid.start
  rw [show g.start = (rawGrammar p).start from hstart, (rawGrammar_valid p).start] at hvalid
  exact (Option.some.inj hvalid).symm

/-- The scanner of a parser that accepts yields the tokens of a tree and the end of the input. -/
theorem exists_scan (h : Calculates p (engine g))
    (hparse : (engine g).parse fuel q text = some (.ok n, q')) :
    ∃ scan last r tree word, Yields (q.source.setInput text) (scan ++ [last]) q'.source ∧
      last.1.isEnd = true ∧ (engine g).recorded.parse fuel q.recorded text = some (.ok n, r) ∧
      r.plain = q' ∧ Parses g.symbols g.rules [tree] [expr] word ∧
      Walk g.symbols [tree] ((solidScan scan).map (·.1)) r.builder.2 [.node n] := by
  obtain ⟨start, hready⟩ := h.ready
  obtain ⟨tree, word, tokens, r, c, hparses, hrecorded, rfl, hsteps, hdone, hwalk⟩ :=
    tree_of_parse hready hparse
  obtain rfl := h.start_eq hready
  obtain ⟨t, -, hahead, -, -, -, haccept⟩ := accept_of_done hdone
  obtain ⟨rfl, -⟩ := accept_ok haccept
  have hready' : (engine g).recorded.grammar.Ready expr := hready
  have hend := isEnd_of_accept hready' hsteps hdone hahead
  obtain ⟨ts, htaken, rfl, -⟩ := hsteps.taken rfl
  rw [hahead] at htaken
  obtain ⟨scan', hscan', hyields⟩ := exists_yields_of_taken htaken
  obtain ⟨scan, end', rfl, rfl, hsplit⟩ := List.map_eq_append_iff.mp hscan'
  obtain ⟨last, rfl, rfl⟩ := List.map_eq_singleton_iff.mp hsplit
  rw [← solidScan_fst] at hwalk
  exact ⟨scan, last, c.parser, tree, word, hyields, hend, hrecorded, rfl, hparses, hwalk⟩

/-- What is scanned for the tree of an expression is scanned in the modes for its leaves, and behind
it the scanner is in its normal mode, with no other one to come back to. -/
theorem modes_of_yields (h : Calculates p (engine g)) {first source : Scanner}
    {scan : List (Token × Mode)} {calls : List (Call Expr)} {children : List (Child Expr)}
    (hfirst : first.modes = []) (hyields : Yields first (scan ++ [last]) source)
    (hend : last.1.isEnd = true) (hparses : Parses g.symbols g.rules [tree] [expr] word)
    (hwalk : Walk g.symbols [tree] ((solidScan scan).map (·.1)) calls children) :
    (solidScan scan).map (·.2) = leafModes .normal tree ∧ last.2 = .normal ∧ source.modes = [] := by
  have hsymbols : g.symbols = registry := h.ruled.symbols
  have hspelling := hparses.spelling hwalk
  rw [hsymbols] at hspelling hparses
  obtain ⟨hleaves, hback⟩ := h.ruled.along_expr hparses []
  obtain ⟨halong, hfold⟩ := along_spelling hspelling []
  rw [hleaves] at halong
  rw [hback] at hfold
  obtain ⟨hmodes, hsource⟩ := hyields.along
  rw [hfirst, List.map_append, List.map_append, modesAlong_append] at hmodes
  rw [hfirst, List.map_append, List.foldl_append] at hsource
  obtain ⟨hscan, hlast⟩ :=
    List.append_inj hmodes (by simp only [length_modesAlong, List.length_map])
  obtain ⟨hsolid, hskip⟩ := solidScan_snd hscan
  rw [← solidScan_fst] at hsolid hskip
  rw [← hskip, hfold] at hlast hsource
  have hnone : source.modes = [] := hsource.trans (modesAfter_of_isEnd hend [])
  exact ⟨hsolid.trans halong, (List.cons.inj hlast).1, hnone⟩

end Calculates

/-- The scanner and the grammar of the calculator agree, whatever the level of the unary minus. In
a text that is accepted each token was scanned in the mode of its leaf in the tree that the builder
was called for, and each blank in the mode of what comes behind it. No mode is left over. -/
theorem scanned_in_leafModes (p : Int) : ∃ g, grammar p = .ok g ∧
    ∀ (q : Parser Scanner Nat) (text : String) (fuel : Nat) (n : Expr) (q' : Parser Scanner Nat),
      (engine g).parse fuel q text = some (.ok n, q') → q'.source.modes = [] ∧
      ∃ scan last r tree word,
        Yields (q.source.setInput text) (scan ++ [(last, .normal)]) q'.source ∧ last.isEnd = true ∧
        (scan ++ [(last, .normal)]).IsChain (fun x y => x.1.isTrivia = true → x.2 = y.2) ∧
        (engine g).recorded.parse fuel q.recorded text = some (.ok n, r) ∧ r.plain = q' ∧
        Parses g.symbols g.rules [tree] [expr] word ∧
        Walk g.symbols [tree] ((solidScan scan).map (·.1)) r.builder.2 [.node n] ∧
        (solidScan scan).map (·.2) = leafModes .normal tree := by
  obtain ⟨g, hgrammar, -, hg⟩ := exists_grammar p
  have h : Calculates p (engine g) := ⟨hg, rfl⟩
  refine ⟨g, hgrammar, fun q text fuel n q' hparse => ?_⟩
  obtain ⟨scan, ⟨last, mode⟩, r, tree, word, hyields, hend, hrecorded, hplain, hparses, hwalk⟩ :=
    h.exists_scan hparse
  obtain ⟨hmodes, rfl, hnone⟩ := h.modes_of_yields rfl hyields hend hparses hwalk
  exact ⟨hnone, scan, last, r, tree, word, hyields, hend, hyields.blanks, hrecorded, hplain,
    hparses, hwalk, hmodes⟩

theorem negSample_scanned_in_leafModes : ∃ g fuel q', grammar defaultNegLevel = .ok g ∧
    (engine g).parse fuel newParser "-<a-1:b[.5]>" = some (.ok negSample, q') ∧
    q'.source.modes = [] ∧ ∃ scan last tree,
      Yields (newParser.source.setInput "-<a-1:b[.5]>") (scan ++ [(last, .normal)]) q'.source ∧
      (solidScan scan).map (·.2) = leafModes .normal tree := by
  obtain ⟨g, hgrammar, hall⟩ := scanned_in_leafModes defaultNegLevel
  obtain ⟨g', hgrammar', -, hg⟩ := exists_grammar defaultNegLevel
  obtain rfl := Except.ok.inj (hgrammar.symm.trans hgrammar')
  have h : Calculates defaultNegLevel (engine g) := ⟨hg, rfl⟩
  obtain ⟨fuel, q', hparse⟩ := h.exists_parse_of_scanAll negSample_scanAll negSample_read
  obtain ⟨hnone, scan, last, r, tree, word, hyields, -, -, -, -, -, -, hmodes⟩ :=
    hall newParser "-<a-1:b[.5]>" fuel negSample q' hparse
  exact ⟨g, fuel, q', hgrammar, hparse, hnone, scan, last, tree, hyields, hmodes⟩

/-- In `<a:b[<c>]>` the inner reference comes back to the mode of the time index. -/
example :
    let inner : Tree := .node (Form.ref.placed 25) [.leaf Mark.less.symbol,
      .node (Form.refName.placed 25) [.leaf Mark.ident.symbol], .leaf Mark.greater.symbol]
    let key : Tree := .node (Form.refTime.placed 25) [.leaf Mark.ident.symbol,
      .leaf Mark.colon.symbol, .leaf Mark.ident.symbol, .leaf Mark.lbracket.symbol, inner,
      .leaf Mark.rbracket.symbol]
    leafModes .normal (.node (Form.ref.placed 25) [.leaf Mark.less.symbol, key,
      .leaf Mark.greater.symbol]) = [.normal, .bracket, .bracket, .spec, .spec, .timeSpec, .bracket,
        .bracket, .timeSpec, .spec] := by decide

end CanonicalLR.Calculator
