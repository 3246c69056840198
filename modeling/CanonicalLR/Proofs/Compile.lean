import CanonicalLR.Compile
import CanonicalLR.Proofs.Grammar.LaidOut
import CanonicalLR.Proofs.GrammarFile.Meaning
import CanonicalLR.Proofs.Report
import CanonicalLR.Proofs.Table.RoundTrip

/-! Compiling writes all of a table or nothing. Every name that a grammar file can give to a
nonterminal can be written, so a table cannot fail halfway, and conflicts are all that can be in the
way of a grammar. No name breaks a line either, so a report has all that there is to tell. -/

namespace CanonicalLR

open GrammarFile Text

variable {file : GrammarFile} {r : Registry} {g g' : Grammar} {s : SymbolId} {text : String}

theorem isBlank_of_isNameChar {c : Char} (h : isNameChar c = true) :
    isBlank c = false ∧ c ≠ ',' := by
  have hrange : (48 ≤ c.toNat ∧ c.toNat ≤ 57) ∨ (65 ≤ c.toNat ∧ c.toNat ≤ 90) ∨
      (97 ≤ c.toNat ∧ c.toNat ≤ 122) ∨ c.toNat = 95 := by
    simp only [isNameChar_eq, Bool.or_eq_true, beq_iff_eq] at h
    rcases h with ((h | h) | h) | rfl
    · exact Or.inr (Or.inl (toNat_of_isUpper h))
    · exact Or.inr (Or.inr (Or.inl (toNat_of_isLower h)))
    · exact Or.inl (toNat_of_isDigit h)
    · decide
  constructor
  · exact isBlank_of_printed (by omega) (by omega)
  · rintro rfl
    simp at hrange

theorem isNameChar_of_isCapitalised {name : String} (h : isCapitalised name = true) :
    ∀ c ∈ name.toList, isNameChar c = true := by
  unfold isCapitalised at h
  split at h
  · cases h
  · next c cs hchars =>
    rw [Bool.and_eq_true, List.all_eq_true] at h
    rw [hchars]
    exact List.forall_mem_cons.mpr ⟨isNameChar_of_isUpper h.1, h.2⟩

theorem not_isUnwritable_of_isCapitalised {name : String} (h : isCapitalised name = true) :
    Table.isUnwritable name = false := by
  have hname := isNameChar_of_isCapitalised h
  unfold isCapitalised at h
  split at h
  · cases h
  · next c cs hchars =>
    rw [Bool.and_eq_true] at h
    rw [hchars] at hname
    have hdigit : c.isDigit = false := by
      rw [← Bool.not_eq_true]
      intro hdigit
      cases h.1.symm.trans (not_isAlpha_of_isDigit hdigit).2
    have hplus : c ≠ '+' := by
      rintro rfl
      exact absurd h.1 (by decide)
    have hnumber : readNat maxUInt32 (c :: cs) = none := by
      simp [readNat, hplus, readDigits, hdigit]
    have hempty : name.isEmpty = false := by
      rw [← Bool.not_eq_true, String.isEmpty_iff]
      rintro rfl
      cases hchars
    rw [Table.isUnwritable, hchars, hnumber, hempty, Bool.false_or, Option.isSome_none,
      Bool.false_or, List.any_eq_false]
    intro d hd
    obtain ⟨hblank, hcomma⟩ := isBlank_of_isNameChar (hname d hd)
    simp [hblank, hcomma]

theorem symbolField_ne_error (hr : Lexical r) (hs : r.Registered s) (e : TableError) :
    Table.symbolField r s ≠ .error e := by
  intro herror
  obtain ⟨-, hterminal, hname⟩ := Table.symbolField_error.mp herror
  have hget : r.get? s = some r.symbols[s.val] := List.getElem?_eq_getElem hs
  rw [Registry.isTerminal, hget, Option.map_some, Option.getD_some] at hterminal
  rw [Registry.name, hget, Option.map_some, Option.getD_some] at hname
  rcases hr _ (List.getElem_mem hs) with ⟨-, hstart | hcapital⟩ | ⟨hterminal', -⟩
  · rw [hstart] at hname
    exact absurd hname (by decide +kernel)
  · rw [not_isUnwritable_of_isCapitalised hcapital] at hname
    cases hname
  · cases hterminal.symm.trans hterminal'

theorem exists_write (hr : Lexical g.symbols) (hregular : g.Regular)
    (hc : g.isConfigured = true) : ∃ text, Table.write g = .ok text := by
  cases hwrite : Table.write g with
  | ok text => exact ⟨text, rfl⟩
  | error e =>
    obtain ⟨state, hmem, s, hkey, herror⟩ :=
      Table.error_mem_tableLines.mp (Table.write_error hc hwrite)
    refine absurd herror (symbolField_ne_error hr ?_ e)
    rcases hkey with hkey | hkey
    · obtain ⟨k, hk⟩ := (SymbolMap.mem_keys _ _).mp hkey
      exact ((hregular state hmem).shift s k hk).1
    · obtain ⟨i, hi⟩ := (SymbolMap.mem_keys _ _).mp hkey
      exact ((hregular state hmem).reduce s i hi).1

/-! Names without line feeds. -/

theorem feed_notMem_of_isCapitalised {name : String} (h : isCapitalised name = true) :
    '\n' ∉ name.toList :=
  fun hmem => absurd (isNameChar_of_isCapitalised h _ hmem) (by decide)

theorem GrammarFile.Registers.feed_notMem_name {ps : List Part} (h : Registers ps r)
    (s : SymbolId) : '\n' ∉ (r.name s).toList := by
  have hnew : ∀ sym ∈ Registry.new.symbols, '\n' ∉ sym.name.toList := by decide +kernel
  have hterminal : ∀ t ∈ Terminal.written, '\n' ∉ t.type.defaultName.toList := by decide +kernel
  rw [Registry.name]
  cases hget : r.get? s with
  | none => simp
  | some sym =>
    rcases (h.mem sym).mp (List.mem_of_getElem? hget) with hsym | hsym
    · exact hnew sym hsym
    · obtain ⟨part, hpart, rfl⟩ := List.mem_map.mp hsym
      have hwritten := h.written part hpart
      cases part with
      | terminal t => exact hterminal t (List.contains_iff_mem.mp hwritten)
      | nonterminal name => exact feed_notMem_of_isCapitalised hwritten

theorem registers_of_parse (hfile : GrammarFile.parse text = .ok file)
    (hr : file.symbols = .ok r) : Registers file.parts r := by
  rcases (written_of_parse hfile).1.symbols_cases with ⟨r', hr', hregisters, -⟩ | ⟨herror, -⟩
  · obtain rfl := Except.ok.inj (hr.symm.trans hr')
    exact hregisters
  · cases hr.symm.trans herror

namespace Compile

theorem grammar_eq (hfile : GrammarFile.parse text = .ok file) (hr : file.symbols = .ok r)
    (hg : file.grammar r = .ok g) : grammar text = .ok g := by
  simp only [grammar, hfile, Except.mapError, bind, Except.bind, hr, hg]

theorem exists_of_grammar (h : grammar text = .ok g) : ∃ file r, GrammarFile.parse text = .ok file ∧
    file.symbols = .ok r ∧ file.grammar r = .ok g := by
  cases hfile : GrammarFile.parse text with
  | error e => simp [grammar, hfile, Except.mapError, bind, Except.bind] at h
  | ok file =>
    cases hr : file.symbols with
    | error e => simp [grammar, hfile, hr, Except.mapError, bind, Except.bind] at h
    | ok r =>
      cases hg : file.grammar r with
      | error e => simp [grammar, hfile, hr, hg, Except.mapError, bind, Except.bind] at h
      | ok g' =>
        rw [grammar_eq hfile hr hg] at h
        cases h
        exact ⟨file, r, rfl, hr, hg⟩

theorem valid_of_grammar (hfile : GrammarFile.parse text = .ok file) (hr : file.symbols = .ok r)
    (hg : file.grammar r = .ok g) :
    g.Built ∧ g.symbols = r ∧ Lexical g.symbols ∧ g.validate = .ok () := by
  obtain ⟨hproper, -⟩ := proper_of_parse hfile
  obtain ⟨hregistry, hlexical⟩ := registry_of_symbols hproper hr
  obtain ⟨hbuilt, rfl, start, hvalid⟩ := built_of_grammar hproper hregistry hlexical hg
  exact ⟨hbuilt, rfl, hlexical, g.validate_ok.mpr ⟨start, hvalid⟩⟩

theorem configure_cases (hfile : GrammarFile.parse text = .ok file) (hr : file.symbols = .ok r)
    (hg : file.grammar r = .ok g) :
    (∃ all, all ≠ [] ∧ g.configure.1 = .error (.conflicts all) ∧ g.configure.2.conflicts = all) ∨
      ∃ g' table, g.configure = (.ok (), g') ∧ g'.conflicts = [] ∧ g'.symbols = r ∧
        g'.rules = g.rules ∧ Table.write g' = .ok table ∧
        (g'.rules.length ≤ maxUInt64 → g'.states.length ≤ maxUInt64 →
          Table.load g table = .ok (g.install g'.states)) := by
  obtain ⟨hbuilt, rfl, hlexical, hv⟩ := valid_of_grammar hfile hr hg
  obtain ⟨-, hresult, -⟩ := Grammar.configure_conflicts hv
  split_ifs at hresult with hnone
  · have hok : g.configure = (.ok (), g.configure.2) := by rw [← hresult]
    obtain ⟨-, hsymbols, hrules, -⟩ := Grammar.configure_ok hok
    have hregular := Grammar.regular_of_ok hbuilt hbuilt.registered hok
    have hconf := Grammar.isConfigured_of_ok hbuilt hok
    obtain ⟨table, hwrite⟩ := exists_write (hsymbols ▸ hlexical) hregular hconf
    refine Or.inr ⟨_, table, hok, hnone, hsymbols, hrules, hwrite, fun hr hs => ?_⟩
    have hinstalled : (g.install g.configure.2.states).Regular := by
      intro state hmem
      have hstate := hregular state hmem
      rwa [hsymbols, hrules] at hstate
    have hlines : Table.tableLines (g.install g.configure.2.states) =
        Table.tableLines g.configure.2 := by
      simp only [Table.tableLines, Grammar.install, hsymbols, hrules]
    have hsame : Table.write (g.install g.configure.2.states) = Table.write g.configure.2 := by
      rw [Table.write, Table.writeWithin, hlines]
      rfl
    have hne : g.configure.2.states ≠ [] := by
      intro hnil
      simp [Grammar.isConfigured, hnil] at hconf
    exact Table.load_of_write hbuilt.symbols_built.distinct hinstalled hne (hrules ▸ hr) hs
      (hsame.trans hwrite)
  · exact Or.inl ⟨_, hnone, hresult, rfl⟩

/-- No line of a report is broken, as a file can only give names without a line feed. -/
theorem report_full (hfile : GrammarFile.parse text = .ok file) (hr : file.symbols = .ok r)
    (hg : file.grammar r = .ok g) :
    g.LaidOut g.configure.2 ∧ Report.Full g.configure.2 (Report.full g.configure.2) := by
  obtain ⟨hbuilt, rfl, -, hv⟩ := valid_of_grammar hfile hr hg
  have hlaid := Grammar.laidOut_configure hbuilt hv
  have hnames := (registers_of_parse hfile hr).feed_notMem_name
  refine ⟨hlaid, Report.full_of_names (hlaid.symbols_eq ▸ hnames) fun c hc => ?_⟩
  refine Report.feed_notMem_message fun state symbol i ruleText he => ?_
  obtain ⟨rule, -, rfl⟩ := Grammar.exists_rule_of_mem_conflicts hbuilt hv hc he
  exact Report.feed_notMem_ruleText hnames rule

theorem source_eq (hg : grammar text = .ok g) (want : Bool) : source text want =
    finish g.configure (if want then Report.full g.configure.2 else "") := by
  rw [source, hg]

theorem finish_of_error {configured : Except ConfigError Unit × Grammar} {e : ConfigError}
    (h : configured.1 = .error e) (report : String) :
    finish configured report = { result := .error (.config e), report } := by
  obtain ⟨result, g⟩ := configured
  cases h
  rfl

theorem finish_of_write {configured : Except ConfigError Unit × Grammar} {table : String}
    (h : configured = (.ok (), g)) (hwrite : Table.write g = .ok table) (report : String) :
    finish configured report = { result := .ok (summary g), table, report } := by
  rw [h, finish, hwrite]

/-- A table goes out whole, or nothing of it does; what goes out is read back as the states of the
grammar. Only conflicts keep a grammar from its table, and the report that is asked for tells all of
the grammar and all the conflicts either way. -/
theorem source_all_or_nothing (text : String) (want : Bool) :
    (∀ e, (source text want).result = .error e → (source text want).table = "") ∧
    (∀ summary, (source text want).result = .ok summary → ∃ file r g g',
      GrammarFile.parse text = .ok file ∧ file.symbols = .ok r ∧ file.grammar r = .ok g ∧
      g.configure = (.ok (), g') ∧ summary = ⟨g.rules.length, r.size, g'.states.length⟩ ∧
      (summary.rules ≤ maxUInt64 → summary.states ≤ maxUInt64 →
        ∃ loaded, Table.load g (source text want).table = .ok loaded ∧
          loaded.states = g'.states)) ∧
    ∀ file r g, GrammarFile.parse text = .ok file → file.symbols = .ok r → file.grammar r = .ok g →
      g.LaidOut g.configure.2 ∧
      (want = true → Report.Full g.configure.2 (source text want).report) ∧
      (want = false → (source text want).report = "") ∧
      (∀ summary, (source text want).result = .ok summary → g.configure.2.conflicts = []) ∧
      ∀ e, (source text want).result = .error e → ∃ all, e = .config (.conflicts all) ∧
        g.configure.1 = .error (.conflicts all) ∧ g.configure.2.conflicts = all ∧ all ≠ [] := by
  cases hgrammar : grammar text with
  | error e =>
    have hsource : source text want = { result := .error e } := by rw [source, hgrammar]
    rw [hsource]
    refine ⟨fun _ _ => rfl, fun _ h => (nomatch h), fun file r g hfile hr hg => ?_⟩
    cases hgrammar.symm.trans (grammar_eq hfile hr hg)
  | ok g =>
    obtain ⟨file, r, hfile, hr, hg⟩ := exists_of_grammar hgrammar
    obtain ⟨hlaid, hfull⟩ := report_full hfile hr hg
    rw [source_eq hgrammar]
    rcases configure_cases hfile hr hg with
      ⟨all, hne, hall, hleft⟩ | ⟨g', table, hok, hnone, hsymbols, hrules, hwrite, hload⟩
    · rw [finish_of_error hall]
      refine ⟨fun _ _ => rfl, fun _ h => (nomatch h), fun file' r' g' hfile' hr' hg' => ?_⟩
      obtain rfl := Except.ok.inj (hgrammar.symm.trans (grammar_eq hfile' hr' hg'))
      exact ⟨hlaid, fun h => by rwa [if_pos h], fun h => by simp [h], fun _ h => (nomatch h),
        fun e he => ⟨all, (Except.error.inj he).symm, hall, hleft, hne⟩⟩
    · rw [finish_of_write hok hwrite]
      refine ⟨fun _ h => (nomatch h), fun summary hsummary => ?_,
        fun file' r' g'' hfile' hr' hg' => ?_⟩
      · obtain rfl := Except.ok.inj hsummary
        refine ⟨file, r, g, g', hfile, hr, hg, hok, ?_, fun hrules' hstates => ?_⟩
        · rw [Compile.summary, hrules, hsymbols]
        · exact ⟨_, hload hrules' hstates, rfl⟩
      · obtain rfl := Except.ok.inj (hgrammar.symm.trans (grammar_eq hfile' hr' hg'))
        exact ⟨hlaid, fun h => by rwa [if_pos h], fun h => by simp [h], fun _ _ => by rwa [hok],
          fun _ h => (nomatch h)⟩

/-- Nothing says which of two sums comes first. -/
def ambiguousSource : String := "E -> E + E\nE -> int\n"

theorem sources_all_or_nothing :
    (∃ g loaded, (source "E -> int" true).result = .ok ⟨2, 4, 3⟩ ∧
      Table.load g (source "E -> int" true).table = .ok loaded ∧ loaded.states.length = 3 ∧
      Report.tagged "C," (source "E -> int" true).report =
        ["C,0,$start -> . E, \x7bend\x7d", "C,0,E -> . int, \x7bend\x7d",
          "C,1,$start -> E ., \x7bend\x7d", "C,2,E -> int ., \x7bend\x7d"]) ∧
    (source ambiguousSource true).result =
      .error (.config (.conflicts [.shiftReduce 4 "+" 1 "E -> E + E"])) ∧
    (source ambiguousSource true).table = "" ∧
    Report.tagged "P," (source ambiguousSource true).report =
      ["P,0,0,$start -> E", "P,1,1,E -> E + E", "P,2,2,E -> int"] ∧
    Report.tagged "-- " (source ambiguousSource true).report = ["-- state 4 has conflicts"] ∧
    Report.tagged "CONFLICT," (source ambiguousSource true).report =
      ["CONFLICT,shift/reduce conflict in state 4 on \"+\" (reduce by rule 1: E -> E + E)"] := by
  constructor
  · have hresult : (source "E -> int" true).result.toOption = some ⟨2, 4, 3⟩ := by decide +kernel
    have hok := toOption_eq_some_iff.mp hresult
    have hlines : (grammar "E -> int").toOption.map (fun g =>
        Report.forRows g.configure.2 fun i row =>
          row.set.items.map fun it => s!"C,{i},{it.text g.configure.2.analysis}") =
        some ["C,0,$start -> . E, \x7bend\x7d", "C,0,E -> . int, \x7bend\x7d",
          "C,1,$start -> E ., \x7bend\x7d", "C,2,E -> int ., \x7bend\x7d"] := by decide +kernel
    obtain ⟨-, hwritten, htold⟩ := source_all_or_nothing "E -> int" true
    obtain ⟨file, r, g, g', hfile, hr, hg, -, hsummary, hload⟩ := hwritten _ hok
    obtain ⟨loaded, hloaded, hstates⟩ := hload (by decide) (by decide)
    obtain ⟨-, hfull, -⟩ := htold file r g hfile hr hg
    rw [grammar_eq hfile hr hg] at hlines
    refine ⟨g, loaded, hok, hloaded, hstates ▸ (congrArg Summary.states hsummary).symm, ?_⟩
    rw [(hfull rfl).items, ← Option.some.inj hlines]
    simp only [Report.itemLine_eq]
    rfl
  · have hlines : (grammar ambiguousSource).toOption.map (fun g =>
        (g.configure.2.rules.mapIdx (Report.ruleLine g.configure.2),
          Report.forRows g.configure.2 (fun i row =>
            if row.conflicted then [s!"-- state {i} has conflicts"] else []),
          g.configure.2.conflicts)) =
        some (["P,0,0,$start -> E", "P,1,1,E -> E + E", "P,2,2,E -> int"],
          ["-- state 4 has conflicts"], [.shiftReduce 4 "+" 1 "E -> E + E"]) := by decide +kernel
    obtain ⟨g, hsome, hlines⟩ := Option.map_eq_some_iff.mp hlines
    simp only [Prod.mk.injEq] at hlines
    obtain ⟨hrules, hflags, hleft⟩ := hlines
    obtain ⟨file, r, hfile, hr, hg⟩ := exists_of_grammar (toOption_eq_some_iff.mp hsome)
    obtain ⟨hnothing, -, htold⟩ := source_all_or_nothing ambiguousSource true
    obtain ⟨-, hfull, -, hdone, hfailed⟩ := htold file r g hfile hr hg
    cases hresult : (source ambiguousSource true).result with
    | ok summary =>
      rw [hdone summary hresult] at hleft
      cases hleft
    | error e =>
      obtain ⟨all, rfl, -, hall, -⟩ := hfailed e hresult
      obtain rfl := hall.symm.trans hleft
      refine ⟨rfl, hnothing _ hresult, ?_, (hfull rfl).flags.trans hflags, ?_⟩
      · rw [(hfull rfl).rules, ← funext₂ (Report.ruleLine_eq g.configure.2)]
        exact hrules
      · rw [(hfull rfl).conflicts, hleft]
        decide +kernel

end Compile

end CanonicalLR
