import CanonicalLR.Proofs.Scanner.Lexical
import CanonicalLR.Proofs.Scanner.Tokens

/-! Tokens that are written one behind the other, without blanks between them. Where the character
behind a token cannot go on with its lexeme, the scanner finds just this token again. -/

namespace CanonicalLR.Scanner

open Decimal (Faithful allDigits_toDigits)

variable {mode : Mode} {lexeme : Lexeme} {cs : List Char}

/-- What is written for a token. -/
inductive Written where
  | punct (c : Char)
  | int (n : Nat)
  | float (x : Float)
  | ident (name : String)

namespace Written

def chars : Written → List Char
  | punct c => [c]
  | int n => Nat.toDigits 10 n
  | float x => (Decimal.Style.literal.write x).toList
  | ident name => name.toList

def type : Written → TokenType
  | punct c => c.val
  | int _ => TokenKind.int.type
  | float _ => TokenKind.float.type
  | ident _ => TokenKind.ident.type

def payload : Written → Payload
  | punct _ => .none
  | int n => .int n
  | float x => .float x
  | ident name => .ident name

def token (w : Written) (span : Span) : Token := ⟨span, w.type, w.payload⟩

/-- The token is this one, whatever its place. -/
def Is (w : Written) (t : Token) : Prop := ∃ span, t = w.token span

/-- In this mode and before this character it is scanned as what it is. -/
def Fits (mode : Mode) (next : Option Char) (w : Written) : Prop :=
  ∃ lexeme, lexeme? mode w.chars = some lexeme ∧
    (∀ span, Scanner.token span w.chars lexeme = .ok (w.token span)) ∧
    ∀ c, next = some c → Phase.start.follow mode (w.chars ++ [c]) = none

theorem Fits.next {w : Written} {s : Scanner} {rest : List Char} (h : w.Fits s.mode rest.head?)
    (hs : s.rest = w.chars ++ rest) : ∃ span s', s.next = (.ok (w.token span), s') ∧
      (w.token span).isEnd = false ∧ s'.rest = rest ∧
      s'.modes = modesAfter s.modes (w.token span) := by
  obtain ⟨lexeme, hlexeme, htoken, hend⟩ := h
  have htake : s.rest.take w.chars.length = w.chars := by rw [hs, List.take_left]
  have hbest : (munch s.mode s.rest).best = some (w.chars.length, lexeme) := by
    refine best_munch_iff.mpr ⟨by simp [hs], by rwa [htake], fun k hlt hle => ?_⟩
    cases rest with
    | nil =>
      rw [hs, List.append_nil] at hle
      omega
    | cons c rest =>
      have hsplit : s.rest.take k = (w.chars ++ [c]) ++ rest.take (k - w.chars.length - 1) := by
        obtain ⟨i, rfl⟩ := Nat.exists_eq_add_of_lt hlt
        rw [hs, Nat.add_assoc, List.take_length_add_append, List.take_succ_cons]
        simp
      rw [lexeme?, Phase.reads, hsplit, Phase.follow_append, hend c rfl]
      rfl
  have hne : s.rest ≠ [] := by
    rw [hs]
    intro hnil
    rw [(List.append_eq_nil_iff.mp hnil).1] at hlexeme
    cases hlexeme
  obtain ⟨s', hnext, hrest, -, hmodes⟩ := next_of_token hbest (by rw [htake]; exact htoken _)
  rw [hs, List.drop_left] at hrest
  exact ⟨_, s', hnext, (length_lt_of_next hnext hne).2, hrest, hmodes⟩

def modesAfter (modes : List Mode) (w : Written) : List Mode :=
  Scanner.modesAfter modes (w.token (.single 0))

end Written

def charsOf (ws : List Written) : List Char := ws.flatMap Written.chars

/-- One fits behind the other from these modes on. -/
def Clean : List Mode → List Written → Prop
  | _, [] => True
  | modes, w :: ws => w.Fits (modes.headD .normal) (charsOf ws).head? ∧ Clean (w.modesAfter modes) ws

/-- What is written cleanly is scanned as it was written. -/
theorem delivers_of_clean {s : Scanner} {ws : List Written} (h : Clean s.modes ws)
    (hs : s.rest = charsOf ws) : ∃ ts, Delivers source ts s ∧ List.Forall₂ Written.Is ws ts := by
  induction ws generalizing s with
  | nil => exact ⟨[], .finish (next_of_rest_eq_nil hs) rfl, .nil⟩
  | cons w ws ih =>
    obtain ⟨hfits, hclean⟩ := h
    obtain ⟨span, s', hnext, hend, hrest, hmodes⟩ := hfits.next hs
    have hclean' : Clean s'.modes ws := by
      rw [hmodes]
      exact hclean
    obtain ⟨ts, hts, hwritten⟩ := ih hclean' hrest
    exact ⟨w.token span :: ts, .token hnext hend hts, .cons ⟨span, rfl⟩ hwritten⟩

/-! What can be written. -/

/-- A character that ends every name and number before it. -/
def Delimits (mode : Mode) (next : Option Char) : Prop :=
  ∀ c, next = some c → mode.classify c = .sign ∨ mode.classify c = .symbol

theorem follow_of_delimits {next : Option Char} (hends : Delimits mode next)
    (h : lexeme? mode cs = some lexeme)
    (hlexeme : lexeme = .ident ∨ lexeme = .int ∨ lexeme = .float) :
    ∀ c, next = some c → Phase.start.follow mode (cs ++ [c]) = none := by
  intro c hc
  obtain ⟨phase, hphase, haccepts⟩ := Option.bind_eq_some_iff.mp h
  have hnext : phase.next (mode.classify c) = none := by
    rcases hends c hc with hkind | hkind <;> rw [hkind] <;>
      rcases hlexeme with rfl | rfl | rfl <;> cases phase <;> cases haccepts <;> rfl
  rw [Phase.follow_append, hphase, Option.bind_some, Phase.follow, hnext]
  rfl

theorem Written.fits_punct {c : Char} {next : Option Char}
    (hc : mode.classify c = .sign ∨ mode.classify c = .symbol) : (punct c).Fits mode next := by
  refine ⟨.punct, ?_, fun span => rfl, fun d _ => ?_⟩
  · rw [chars, lexeme?, Phase.reads_cons]
    rcases hc with hc | hc <;> rw [hc] <;> rfl
  · rw [chars, List.singleton_append, Phase.follow]
    rcases hc with hc | hc <;> rw [hc, Phase.next, Option.bind_some, Phase.follow] <;>
      cases mode.classify d <;> rfl

/-- The text is scanned as an identifier in this mode. -/
structure IsName (mode : Mode) (name : String) : Prop where
  lexeme : lexeme? mode name.toList = some .ident
  not_true : name ≠ "true"
  not_false : name ≠ "false"

theorem Written.fits_ident {name : String} {next : Option Char} (h : IsName mode name)
    (hends : Delimits mode next) : (ident name).Fits mode next := by
  refine ⟨.ident, h.lexeme, fun span => ?_, follow_of_delimits hends h.lexeme (Or.inl rfl)⟩
  simp only [chars, Scanner.token, String.ofList_toList, identToken, if_neg h.not_true,
    if_neg h.not_false]
  rfl

/-! Numbers. -/

theorem Written.fits_int {n : Nat} {next : Option Char} (hn : n ≤ Text.maxInt64)
    (hends : Delimits mode next) : (int n).Fits mode next := by
  have hlexeme : lexeme? mode (Nat.toDigits 10 n) = some .int :=
    lexeme?_iff.mpr (.int (allDigits_toDigits n))
  refine ⟨.int, hlexeme, fun span => ?_, follow_of_delimits hends hlexeme (Or.inr (Or.inl rfl))⟩
  simp only [chars, Scanner.token, intToken, Text.readNat_toDigits hn]
  rfl

theorem Written.fits_float {x : Float} {next : Option Char} (h : Faithful x)
    (hmode : mode.inReference = false) (hends : Delimits mode next) : (float x).Fits mode next := by
  obtain ⟨v, hv⟩ := h.numeral.fractional
  have hlexeme := lexeme?_iff.mpr (.float hmode hv)
  refine ⟨.float, hlexeme, fun span => ?_, follow_of_delimits hends hlexeme (Or.inr (Or.inr rfl))⟩
  simp only [chars, Scanner.token, floatToken, h.reads]
  rfl

end CanonicalLR.Scanner
