import CanonicalLR.ConfigError

/-! What can go wrong while a grammar file is read and made into a grammar. -/

namespace CanonicalLR

inductive LineFault where
  | unexpected (c : Char)
  | gluedComment
  | startForm
  | unknownDirective (text : String)
  | notLevel (text : String)
  | missingLevel
  | notTokenKind (text : String)
  | notTerminal (text : String)
  | noTerminals (directive : String)
  | ruleForm
  | precNotLast
  | noRulesFor (name : String)
deriving DecidableEq

def LineFault.message : LineFault → String
  | unexpected c => s!"unexpected {Text.quote c.toString}"
  | gluedComment => "`--` directly after a token; write `- -` for two terminals"
  | startForm => "expected `%start Name`"
  | unknownDirective text => s!"unknown directive {text}"
  | notLevel text => s!"expected a precedence level, found {Text.quote text}"
  | missingLevel => "missing precedence level"
  | notTokenKind text => s!"{Text.quote text} is not a token kind"
  | notTerminal text => s!"expected a terminal, found {Text.quote text}"
  | noTerminals directive => s!"{directive} lists no terminals"
  | ruleForm => "expected `Name -> ...`"
  | precNotLast => "`%prec <level>` must end the rule"
  | noRulesFor name => s!"nonterminal {name} has no rules"

inductive GrammarFileError where
  | inLine (line : Nat) (fault : LineFault)
  | levelTooLarge
  | noRules
  | unknownSymbol (name : String)
  | unknownTerminal (type : TokenType)
deriving DecidableEq

def GrammarFileError.message : GrammarFileError → String
  | inLine line fault => s!"line {line}: {fault.message}"
  | levelTooLarge => "number too large to fit in target type"
  | noRules => "grammar has no rules"
  | unknownSymbol name => s!"unknown symbol {Text.quote name}"
  | unknownTerminal type => s!"unknown terminal {type.toNat}"

end CanonicalLR
