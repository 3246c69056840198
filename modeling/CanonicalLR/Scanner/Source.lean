import CanonicalLR.Parser.Basic
import CanonicalLR.Scanner.Basic

/-! The scanner as a token source of the parser. -/

namespace CanonicalLR

def Scanner.source : Source Scanner := ⟨Scanner.setInput, Scanner.next⟩

end CanonicalLR
