import CanonicalLR.GrammarFile.Grammar
import CanonicalLR.Proofs.Grammar.Built
import CanonicalLR.Proofs.GrammarFile.Lexemes
import CanonicalLR.Proofs.Results
import CanonicalLR.Proofs.Symbol.Requests

/-! Names in grammar files. Nonterminals are the capitalised names and no terminal has such a name,
so what stands for a nonterminal in a file is one in the grammar. -/

namespace CanonicalLR.GrammarFile

open CanonicalLR.Text

variable {file file' : GrammarFile} {line : Nat} {w : Word} {ws : List Word}

def isCapitalised (name : String) : Bool :=
  match name.toList with
  | [] => false
  | c :: cs => c.isUpper && cs.all isNameChar

/-! Words. -/

theorem Word.Formed.var (h : w.Formed) (hkind : w.kind = .var) : isCapitalised w.text = true := by
  obtain ⟨kind, chars⟩ := w
  cases hkind
  cases h with
  | var hupper hcs => simpa [isCapitalised, Word.text, hupper] using hcs

theorem Word.Formed.sym (h : w.Formed) (hkind : w.kind = .sym) : ∃ c ∈ symChars, w.chars = [c] := by
  obtain ⟨kind, chars⟩ := w
  cases hkind
  cases h with
  | sym hc => exact ⟨_, hc, rfl⟩

theorem formed_of_wordsFrom {fuel : Nat} {afterWord : Bool} {cs : List Char}
    (h : wordsFrom line fuel afterWord cs = .ok ws) : ∀ w ∈ ws, w.Formed := by
  induction fuel generalizing afterWord cs ws with
  | zero =>
    cases h
    simp
  | succ fuel ih =>
    cases cs with
    | nil =>
      cases h
      simp
    | cons c rest =>
      simp only [wordsFrom] at h
      split_ifs at h with hgap hdash hafter
      · exact ih h
      · cases h
        simp
      · cases hat : wordAt c rest with
        | none => simp [hat] at h
        | some found =>
          obtain ⟨kind, size⟩ := found
          rw [hat] at h
          obtain ⟨ws', hws, rfl⟩ := map_ok h
          exact List.forall_mem_cons.mpr ⟨lexeme_of_wordAt hat, ih hws⟩

theorem formed_of_wordLines {source : List Char} {lines : List (Nat × List Word)}
    (h : wordLines source = .ok lines) : ∀ entry ∈ lines, ∀ w ∈ entry.2, w.Formed := by
  obtain ⟨all, hall, h⟩ := bind_ok h
  cases h
  intro entry hentry
  obtain ⟨numbered, -, hwords⟩ := exists_of_mem_mapM hall (List.mem_of_mem_filter hentry)
  obtain ⟨ws, hws, rfl⟩ := map_ok hwords
  exact formed_of_wordsFrom hws

/-! Files. -/

/-- The terminals that a file can name. -/
def Terminal.written : List Terminal :=
  symChars.map .char ++ [TokenKind.int, .float, .str, .bool, .ident].map .kind

def Part.isWritten : Part → Bool
  | .terminal t => Terminal.written.contains t
  | .nonterminal name => isCapitalised name

theorem parts_of_production {p : Production} (hp : p ∈ file.productions) :
    ∀ part ∈ Part.nonterminal p.lhs :: p.rhs, part ∈ file.parts :=
  fun _ hpart => List.mem_append_right _ (List.mem_flatMap.mpr ⟨p, hp, hpart⟩)

theorem parts_of_declaration {d : Declaration} (hd : d ∈ file.declarations) :
    ∀ t ∈ d.terminals, .terminal t ∈ file.parts :=
  fun _ ht => List.mem_append_left _ (List.mem_flatMap.mpr ⟨d, hd, List.mem_map_of_mem ht⟩)

structure Written (file : GrammarFile) : Prop where
  start : ∀ name, file.start = some name → isCapitalised name = true
  parts : ∀ part ∈ file.parts, part.isWritten = true

theorem written_of_readTerminal (hw : w.Formed) {t : Terminal} (h : readTerminal line w = .ok t) :
    t ∈ Terminal.written := by
  unfold readTerminal at h
  split at h
  · next c cs hkind hchars =>
    cases h
    obtain ⟨c', hc, heq⟩ := hw.sym hkind
    rw [hchars] at heq
    cases heq
    exact List.mem_append_left _ (List.mem_map_of_mem hc)
  · split at h
    · cases h
    · cases h
    · cases h
    · next k hfinish hwhitespace _ =>
      cases h
      cases k with
      | finish => exact absurd rfl hfinish
      | whitespace => exact absurd rfl hwhitespace
      | int | float | str | bool | ident => decide
  · cases h

theorem isWritten_of_readPart (hw : w.Formed) {part : Part} (h : readPart line w = .ok part) :
    part.isWritten = true := by
  unfold readPart at h
  split_ifs at h with hkind
  · cases h
    exact hw.var hkind
  · obtain ⟨t, ht, rfl⟩ := map_ok h
    exact List.contains_iff_mem.mpr (written_of_readTerminal hw ht)

theorem written_readDirective {directive : String} (h : file.Written)
    (hws : ∀ w ∈ ws, w.Formed) (hread : file.readDirective line directive ws = .ok file') :
    file'.Written := by
  unfold readDirective at hread
  split_ifs at hread
  · obtain ⟨name, hname, hread⟩ := bind_ok hread
    cases hread
    refine ⟨fun name' hname' => ?_, h.parts⟩
    obtain rfl := Option.some.inj hname'
    unfold readStart at hname
    split at hname
    · next w =>
      split_ifs at hname with hkind
      · cases hname
        exact (hws w (by simp)).var hkind
    · cases hname
  · cases hassoc : assocOf? directive with
    | none => simp [hassoc] at hread
    | some assoc =>
      simp only [hassoc] at hread
      obtain ⟨declaration, hdeclaration, hread⟩ := bind_ok hread
      cases hread
      obtain ⟨level, -, hdeclaration⟩ := bind_ok hdeclaration
      obtain ⟨terminals, hterminals, hdeclaration⟩ := bind_ok hdeclaration
      split_ifs at hdeclaration
      cases hdeclaration
      refine ⟨h.start, fun part hpart => ?_⟩
      simp only [parts, List.flatMap_append, List.flatMap_singleton, List.mem_append,
        List.mem_map] at hpart
      rcases hpart with (hpart | ⟨t, ht, rfl⟩) | hpart
      · exact h.parts part (List.mem_append_left _ hpart)
      · obtain ⟨w, hw, ht⟩ := exists_of_mem_mapM hterminals ht
        exact List.contains_iff_mem.mpr
          (written_of_readTerminal (hws w (List.mem_of_mem_drop hw)) ht)
      · exact h.parts part (List.mem_append_right _ hpart)

theorem mem_of_cutLabel {label : Option String} {rest : List Word}
    (h : cutLabel ws = (label, rest)) (hw : w ∈ rest) : w ∈ ws := by
  unfold cutLabel at h
  split at h
  · split_ifs at h <;> cases h
    · exact List.mem_cons_of_mem _ hw
    · exact hw
  · cases h
    exact hw

theorem mem_of_cutPrec {parts : List Word} {prec : Option Int}
    (h : cutPrec line ws = .ok (parts, prec)) (hw : w ∈ parts) : w ∈ ws := by
  unfold cutPrec at h
  split at h
  · cases h
    exact hw
  · split_ifs at h
    obtain ⟨level, -, heq⟩ := map_ok h
    cases heq
    exact List.mem_of_mem_take hw

theorem isWritten_of_readProduction (hws : ∀ w ∈ ws, w.Formed) {p : Production}
    (h : readProduction line ws = .ok p) :
    ∀ part ∈ Part.nonterminal p.lhs :: p.rhs, part.isWritten = true := by
  unfold readProduction at h
  split at h
  · next label lhs arrow rest hlabel =>
    split_ifs at h with hkind
    obtain ⟨⟨parts, prec⟩, hparts, h⟩ := bind_ok h
    obtain ⟨rhs, hrhs, h⟩ := bind_ok h
    cases h
    have hmem : ∀ w ∈ lhs :: arrow :: rest, w.Formed :=
      fun w hw => hws w (mem_of_cutLabel hlabel hw)
    rw [List.forall_mem_cons]
    refine ⟨(hmem lhs List.mem_cons_self).var hkind.1, fun part hpart => ?_⟩
    obtain ⟨w, hw, hread⟩ := exists_of_mem_mapM hrhs hpart
    exact isWritten_of_readPart (hmem w (by simp [mem_of_cutPrec hparts hw])) hread
  · cases h

theorem written_readLine {entry : Nat × List Word} (h : file.Written)
    (hws : ∀ w ∈ entry.2, w.Formed) (hread : file.readLine entry = .ok file') : file'.Written := by
  obtain ⟨line, ws⟩ := entry
  cases ws with
  | nil =>
    cases hread
    exact h
  | cons w ws =>
    simp only [readLine] at hread
    split_ifs at hread
    · exact written_readDirective h (fun w hw => hws w (List.mem_cons_of_mem _ hw)) hread
    · obtain ⟨p, hp, hread⟩ := bind_ok hread
      cases hread
      refine ⟨h.start, fun part hpart => ?_⟩
      simp only [parts, List.flatMap_append, List.flatMap_singleton, List.mem_append] at hpart
      rcases hpart with hpart | hpart | hpart
      · exact h.parts part (List.mem_append_left _ hpart)
      · exact h.parts part (List.mem_append_right _ hpart)
      · exact isWritten_of_readProduction hws hp part hpart

theorem written_of_parse {source : String} (h : parse source = .ok file) :
    file.Written ∧ file.productions ≠ [] := by
  obtain ⟨lines, hlines, h⟩ := bind_ok h
  obtain ⟨file', hfile, h⟩ := bind_ok h
  split_ifs at h with hempty
  cases h
  have hwritten : Written {} := ⟨nofun, nofun⟩
  refine ⟨foldlM_ok (fun entry hentry file file' hp hread => ?_) hwritten hfile,
    by simpa using hempty⟩
  exact written_readLine hp (formed_of_wordLines hlines entry hentry) hread

/-- A capitalised name stands for a nonterminal, and no other does. -/
def Part.isProper : Part → Bool
  | .terminal t => !isCapitalised t.type.defaultName
  | .nonterminal name => isCapitalised name

structure Proper (file : GrammarFile) : Prop where
  start : ∀ name, file.start = some name → isCapitalised name = true
  parts : ∀ part ∈ file.parts, part.isProper = true

theorem isProper_of_isWritten {part : Part} (h : part.isWritten = true) : part.isProper = true := by
  cases part with
  | nonterminal name => exact h
  | terminal t =>
    have hall : ∀ t ∈ Terminal.written, Part.isProper (.terminal t) = true := by decide +kernel
    exact hall t (List.contains_iff_mem.mp h)

theorem Written.proper (h : file.Written) : file.Proper :=
  ⟨h.start, fun part hpart => isProper_of_isWritten (h.parts part hpart)⟩

theorem proper_of_parse {source : String} (h : parse source = .ok file) :
    file.Proper ∧ file.productions ≠ [] :=
  ⟨(written_of_parse h).1.proper, (written_of_parse h).2⟩

/-! Registries of files. -/

/-- What is called like a nonterminal is one, and every other nonterminal is the one above the start
symbol. -/
def Lexical (r : Registry) : Prop :=
  ∀ sym ∈ r.symbols, (sym.kind = .nonterminal ∧ (sym.name = Registry.startName ∨
    isCapitalised sym.name = true)) ∨ (sym.isTerminal = true ∧ isCapitalised sym.name = false)

variable {r r' : Registry} {s : SymbolId} {name : String}

theorem lexical_new : Lexical .new := by
  unfold Lexical
  decide +kernel

theorem Lexical.append (h : Lexical r) {sym : Symbol} (hsym : Lexical ⟨[sym]⟩) :
    Lexical ⟨r.symbols ++ [sym]⟩ := by
  intro other hother
  rcases List.mem_append.mp hother with hother | hother
  · exact h other hother
  · exact hsym other hother

def Part.symbol : Part → Symbol
  | .terminal t => ⟨t.type.defaultName, .terminal t.type⟩
  | .nonterminal name => ⟨name, .nonterminal⟩

theorem answers_registerPart (h : r.Sound) (part : Part) :
    Registry.Answers r part.symbol (registerPart r part) := by
  cases part with
  | terminal t => exact h.answers_terminalNamed t.type _
  | nonterminal name => exact h.answers_register name .nonterminal nofun

theorem lexical_symbol {part : Part} (hpart : part.isProper = true) : Lexical ⟨[part.symbol]⟩ := by
  intro sym hsym
  obtain rfl := List.mem_singleton.mp hsym
  cases part with
  | terminal t =>
    have hname : isCapitalised t.type.defaultName = false := by simpa [Part.isProper] using hpart
    exact Or.inr ⟨rfl, hname⟩
  | nonterminal name => exact Or.inl ⟨rfl, Or.inr hpart⟩

theorem lexical_registerPart (hr : r.Sound) (h : Lexical r) {part : Part}
    (hpart : part.isProper = true) (hregister : registerPart r part = .ok (s, r')) :
    Lexical r' := by
  have hanswers := answers_registerPart hr part
  rw [hregister] at hanswers
  cases hanswers with
  | found => exact h
  | added => exact h.append (lexical_symbol hpart)

theorem built_registerPart (h : r.Built) {part : Part}
    (hregister : registerPart r part = .ok (s, r')) : r'.Built := by
  cases part with
  | terminal t => exact .terminal h hregister
  | nonterminal name => exact .nonterminal h hregister

theorem registry_of_registerAll {ps : List Part} (hps : ∀ part ∈ ps, part.isProper = true)
    (h : registerAll r ps = (.ok (), r')) (hbuilt : r.Built) (hlexical : Lexical r) :
    r'.Built ∧ Lexical r' := by
  induction ps generalizing r with
  | nil =>
    cases h
    exact ⟨hbuilt, hlexical⟩
  | cons part ps ih =>
    cases hpart : registerPart r part with
    | error e =>
      rw [registerAll, hpart] at h
      cases h
    | ok found =>
      obtain ⟨s, next⟩ := found
      rw [registerAll, hpart] at h
      rw [List.forall_mem_cons] at hps
      exact ih hps.2 h (built_registerPart hbuilt hpart)
        (lexical_registerPart hbuilt.sound hlexical hps.1 hpart)

theorem registry_of_symbols (hfile : file.Proper) (h : file.symbols = .ok r) :
    r.Built ∧ Lexical r := by
  unfold symbols at h
  split at h
  · cases h
  · next hregistration =>
    cases h
    exact registry_of_registerAll hfile.parts hregistration .new lexical_new

theorem isTerminal_of_findName (hr : Lexical r) (hs : findName r name = .ok s)
    (hname : isCapitalised name = true) : r.Registered s ∧ r.isTerminal s = false := by
  unfold findName at hs
  split at hs
  · next found hfound =>
    cases hs
    obtain ⟨kind, hget⟩ := Registry.get?_of_byName? hfound
    refine ⟨Registry.registered_of_get? hget, ?_⟩
    rcases hr _ (List.mem_of_getElem? hget) with ⟨hkind, -⟩ | ⟨-, hno⟩
    · rw [Registry.isTerminal, hget, Option.map_some, Option.getD_some, Symbol.isTerminal, hkind]
    · cases hno.symm.trans hname
  · cases hs

/-! Grammars of files. -/

theorem registered_of_findPart {part : Part} (hs : findPart r part = .ok s) : r.Registered s := by
  cases part with
  | terminal t =>
    simp only [findPart, findTerminal] at hs
    split at hs
    · next hfound =>
      cases hs
      exact Registry.registered_of_isTerminal (Registry.isTerminal_of_byType? hfound)
    · cases hs
  | nonterminal name =>
    simp only [findPart, findName] at hs
    split at hs
    · next hfound =>
      cases hs
      exact Registry.registered_of_byName? hfound
    · cases hs

theorem registered_of_ruleOf {p : Production} {i : Nat} {rule : Rule} (hr : Lexical r)
    (hp : isCapitalised p.lhs = true) (h : ruleOf r p i = .ok rule) :
    r.isTerminal rule.lhs = false ∧ ∀ s, rule.Mentions s → r.Registered s := by
  obtain ⟨lhs, hlhs, h⟩ := bind_ok h
  obtain ⟨rhs, hrhs, h⟩ := bind_ok h
  cases h
  obtain ⟨hregistered, hterminal⟩ := isTerminal_of_findName hr hlhs hp
  refine ⟨hterminal, fun s hs => ?_⟩
  rcases hs with rfl | hs
  · exact hregistered
  · obtain ⟨part, -, hpart⟩ := exists_of_mem_mapM hrhs hs
    exact registered_of_findPart hpart

theorem isCapitalised_lhs (hfile : file.Proper) {p : Production} (hp : p ∈ file.productions) :
    isCapitalised p.lhs = true :=
  hfile.parts _ (parts_of_production hp _ List.mem_cons_self)

theorem isCapitalised_of_startSymbol? (hfile : file.Proper) (h : file.startSymbol? = some name) :
    isCapitalised name = true := by
  unfold startSymbol? at h
  rcases Option.or_eq_some_iff.mp h with hstart | ⟨-, hfirst⟩
  · exact hfile.start name hstart
  · obtain ⟨p, hp, rfl⟩ := Option.map_eq_some_iff.mp hfirst
    exact isCapitalised_lhs hfile (List.mem_of_head? hp)

/-- The grammar of a file is well-formed: its start symbol and the left-hand sides of its rules are
nonterminals. -/
theorem built_of_grammar {g : Grammar} (hfile : file.Proper) (hr : r.Built) (hlexical : Lexical r)
    (h : file.grammar r = .ok g) : g.Built ∧ g.symbols = r ∧ ∃ s, g.Valid s := by
  obtain ⟨rules, hrules, h⟩ := bind_ok h
  obtain ⟨-, -, h⟩ := bind_ok h
  cases hname : file.startSymbol? with
  | none => simp [hname] at h
  | some name =>
    simp only [hname] at h
    obtain ⟨start, hstart, h⟩ := bind_ok h
    obtain ⟨hregistered, hnonterminal⟩ :=
      isTerminal_of_findName hlexical hstart (isCapitalised_of_startSymbol? hfile hname)
    have hrule : ∀ rule ∈ rules, r.isTerminal rule.lhs = false ∧
        ∀ s, rule.Mentions s → r.Registered s := by
      intro rule hmem
      obtain ⟨⟨p, i⟩, hp, hrule⟩ := exists_of_mem_mapM hrules hmem
      exact registered_of_ruleOf hlexical
        (isCapitalised_lhs hfile (List.fst_mem_of_mem_zipIdx hp)) hrule
    obtain ⟨hsymbols, -⟩ := Grammar.addRules_keeps (.new r) rules
    have hbuilt : ((rules.foldl Grammar.addRule (.new r)).setStart start).Built := by
      refine .setStart ((Grammar.Built.new hr).addRules fun rule hmem => (hrule rule hmem).2) ?_
      rw [hsymbols]
      exact hregistered
    have hvalid : ((rules.foldl Grammar.addRule (.new r)).setStart start).Valid start := by
      refine ⟨rfl, ?_, fun rule hmem => ?_⟩
      · exact (congrArg (Registry.isTerminal · start) hsymbols).trans hnonterminal
      · rw [Grammar.clients_setStart, Grammar.clients_addRules] at hmem
        obtain ⟨i, hi, rfl⟩ := List.mem_mapIdx.mp hmem
        exact (congrArg (Registry.isTerminal · _) hsymbols).trans
          (hrule _ (List.getElem_mem hi)).1
    refine foldlM_ok (p := fun g : Grammar => g.Built ∧ g.symbols = r ∧ ∃ s, g.Valid s) ?_
      ⟨hbuilt, hsymbols, start, hvalid⟩ h
    intro d _ g g' ⟨hg, hsymbols, s, hv⟩ hd
    obtain ⟨ids, -, hd⟩ := bind_ok hd
    cases hd
    obtain ⟨hs, hrules, hstart⟩ := g.declare_keeps d.assoc d.level ids
    exact ⟨hg.declare _ _ _, hs.trans hsymbols, s, hv.of_eq hs hrules hstart⟩

end CanonicalLR.GrammarFile
