import CanonicalLR.Grammar.Configure
import CanonicalLR.Text.Lines

/-! A readable account of a grammar: its rules, its FIRST sets, its item sets with their actions,
and its conflicts. -/

namespace CanonicalLR.Report

open CanonicalLR.Text

def ruleLine (g : Grammar) (i : Nat) (rule : Rule) : String :=
  let level := match g.rulePrecedence? rule with
    | some n => s!" [prec {n}]"
    | none => ""
  s!"P,{i},{rule.id},{rule.text g.symbols}{level}"

def rules (g : Grammar) : String :=
  unlines ([s!"PS,{g.rules.length}", ""] ++ g.rules.mapIdx (ruleLine g))

def firstLine (a : Analysis) (s : SymbolId) : String :=
  let empty := if a.isNullable s then "`empty', " else ""
  let names := String.join ((a.first s).toList.map fun t => a.symbols.name t ++ ", ")
  "FIRST," ++ a.symbols.name s ++ ",\x7b" ++ empty ++ names ++ "\x7d"

def first (g : Grammar) : String :=
  let nonterminals := g.symbols.toList.filter fun (_, symbol) => !symbol.isTerminal
  unlines (nonterminals.map fun (s, _) => firstLine g.analysis s)

def actionLine (r : Registry) (i : Nat) (verb : String) (entry : SymbolId × Nat) : String :=
  s!"A,{i},{r.name entry.1},{verb} {entry.2}"

def rowLines (a : Analysis) (i : Nat) (row : Row) : List String :=
  (if row.conflicted then [s!"-- state {i} has conflicts"] else [])
    ++ row.set.items.map (fun it => s!"C,{i},{it.text a}")
    ++ row.actions.shifts.entries.map (actionLine a.symbols i "shift")
    ++ row.actions.reduces.entries.map (actionLine a.symbols i "reduce")
    ++ [""]

def sets (g : Grammar) : String :=
  let a := g.analysis
  unlines ([s!"CS,{g.rows.length}", ""] ++ (g.rows.mapIdx (rowLines a)).flatten)

def conflicts (g : Grammar) : String :=
  unlines (g.conflicts.map fun c => "CONFLICT," ++ c.message)

def full (g : Grammar) : String :=
  rules g ++ "\n" ++ first g ++ "\n" ++ sets g ++ conflicts g

end CanonicalLR.Report
