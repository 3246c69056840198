import CanonicalLR.Grammar.Collection

/-! Configuring a grammar: its item sets become states. Where a set allows both a shift and a
reduction, precedence and associativity decide; what they leave open is a conflict. -/

namespace CanonicalLR

inductive Verdict where
  | shift
  | reduce
  | neither
  | undecided
deriving DecidableEq

def Assoc.verdict : Assoc → Verdict
  | left => .reduce
  | right => .shift
  | nonassoc => .neither

namespace Grammar

/-- Associativity decides between equal levels, and where the terminal is the rule's rightmost
one. -/
def assocVerdict (g : Grammar) (s : SymbolId) (rule : Rule) (equal : Bool) : Verdict :=
  match g.assoc? s with
  | none => .undecided
  | some assoc =>
    if equal || g.symbols.lastTerminal? rule.rhs == some s then assoc.verdict else .undecided

/-- The choice between shifting `s` and reducing by `rule`: the higher level wins. -/
def verdict (g : Grammar) (s : SymbolId) (rule : Rule) : Verdict :=
  match g.precedence? s, g.rulePrecedence? rule with
  | some shift, some reduce =>
    if reduce < shift then .shift
    else if shift < reduce then .reduce
    else g.assocVerdict s rule true
  | _, _ => g.assocVerdict s rule false

def resolve (g : Grammar) (state : Nat) (row : Row) (s : SymbolId) : Row × Option Conflict :=
  match row.actions.reduces.get? s with
  | none => (row, none)
  | some index =>
    match g.rules[index]? with
    | none => (row, none)
    | some rule =>
      let actions := row.actions
      let noShift := actions.shifts.erase s
      let noReduce := actions.reduces.erase s
      match g.verdict s rule with
      | .shift => ({ row with actions := { actions with reduces := noReduce } }, none)
      | .reduce => ({ row with actions := { actions with shifts := noShift } }, none)
      | .neither => ({ row with actions := ⟨noShift, noReduce⟩ }, none)
      | .undecided =>
        ({ row with conflicted := true },
          some (.shiftReduce state (g.symbols.name s) index (rule.text g.symbols)))

/-- Enters the reductions of `s`; of several rules the last one is entered. -/
def enterReduce (g : Grammar) (a : Analysis) (state : Nat) (row : Row) (s : SymbolId) :
    Row × Option Conflict :=
  let rules := row.set.reduceRules a s
  let reduces := rules.foldl (fun map rule => map.insert s rule) row.actions.reduces
  let row := { row with actions := { row.actions with reduces } }
  if 1 < rules.length then
    ({ row with conflicted := true }, some (.reduceReduce state (g.symbols.name s) rules))
  else (row, none)

def eachCell (work : Row → SymbolId → Row × Option Conflict) (ids : List SymbolId)
    (found : Row × List Conflict) : Row × List Conflict :=
  ids.foldl (fun (row, conflicts) s =>
    let (row, conflict) := work row s
    (row, conflicts ++ conflict.toList)) found

/-- The row of an item set with its shifts: reductions are entered, then the cells with both are
settled. -/
def row (g : Grammar) (a : Analysis) (state : Nat) (set : ItemSet) (shifts : SymbolMap Nat) :
    Row × List Conflict :=
  let reducing := set.reduceSymbols a
  let shifting : Row := { set, actions := { shifts } }
  let entered := eachCell (g.enterReduce a state) reducing.toList (shifting, [])
  eachCell (g.resolve state) ((set.shiftSymbols a).inter reducing).toList entered

def rowsOf (g : Grammar) (a : Analysis) (c : Collection) : List (Row × List Conflict) :=
  (c.members.zip c.shifts).mapIdx fun state (m, shifts) => g.row a state m.set shifts

def validate (g : Grammar) : Except ConfigError Unit :=
  match g.start with
  | none => .error .noStartSymbol
  | some s =>
    if g.symbols.isTerminal s then .error (.startNotNonterminal (g.symbols.name s))
    else
      match (g.rules.drop 1).find? fun rule => g.symbols.isTerminal rule.lhs with
      | some rule => .error (.terminalLhs rule.id (g.symbols.name rule.lhs))
      | none => .ok ()

/-- Builds the item sets of a valid grammar; the rows become states if there is no conflict. -/
def build (g : Grammar) : Except ConfigError Unit × Grammar :=
  let a := g.analysis
  let found := g.rowsOf a (.of a)
  let rows := found.map (·.1)
  let conflicts := found.flatMap (·.2)
  if conflicts.isEmpty then
    (.ok (), { g with rows, states := rows.map (·.actions), conflicts := [] })
  else (.error (.conflicts conflicts), { g with rows, states := [], conflicts })

def configure (g : Grammar) : Except ConfigError Unit × Grammar :=
  match g.validate with
  | .error e => (.error e, g.reset)
  | .ok () => g.reset.build

/-- The grammar as configuring leaves it, with an error or without. -/
def afterConfigure (g : Grammar) : Grammar := g.configure.2

/-- The configured grammar, if there is no error. -/
def configured (g : Grammar) : Except ConfigError Grammar :=
  match g.configure with
  | (.error e, _) => .error e
  | (.ok (), g) => .ok g

end Grammar

end CanonicalLR
