import CanonicalLR.Proofs.Parser.Acceptance
import CanonicalLR.Proofs.Parser.Halting
import CanonicalLR.Proofs.Scanner.Longest
import CanonicalLR.Scanner.Source

/-! The scanner as a source of tokens. Each token takes at least one character, so a text gives
finitely many tokens and then end tokens for ever, or an error after some of them. -/

namespace CanonicalLR

/-- The source yields some tokens, none of them an end token, and then an error. -/
inductive Breaks {σ : Type} (source : Source σ) : σ → Prop where
  | error {err : ParseError} {state state' : σ} : source.next state = (.error err, state') →
      Breaks source state
  | token {t : Token} {state state' : σ} : source.next state = (.ok t, state') →
      t.isEnd = false → Breaks source state' → Breaks source state

/-- The tokens that are neither blank nor the end of the input. -/
def significant (ts : List Token) : List Token := ts.filter fun t => !t.isTrivia && !t.isEnd

theorem significant_append_end {ts : List Token} {last : Token} (hts : ∀ t ∈ ts, t.isEnd = false)
    (hlast : last.isEnd = true) : significant (ts ++ [last]) = solid ts := by
  have hfilter : significant ts = solid ts :=
    List.filter_congr fun t ht => by rw [hts t ht, Bool.not_false, Bool.and_true]
  have hdrop : significant [last] = [] := by simp [significant, hlast]
  rw [significant, List.filter_append]
  exact (congrArg₂ (· ++ ·) hfilter hdrop).trans (List.append_nil _)

/-- A token holds what its type says. -/
structure Token.Typed (t : Token) : Prop where
  int : t.type = TokenKind.int.type → ∃ n, t.payload = .int n
  float : t.type = TokenKind.float.type → ∃ x, t.payload = .float x
  ident : t.type = TokenKind.ident.type → ∃ name, t.payload = .ident name

theorem Token.Typed.of_ne {t : Token} (hint : t.type ≠ TokenKind.int.type)
    (hfloat : t.type ≠ TokenKind.float.type) (hident : t.type ≠ TokenKind.ident.type) : t.Typed where
  int h := absurd h hint
  float h := absurd h hfloat
  ident h := absurd h hident

namespace Scanner

variable {s s' : Scanner} {t : Token} {mode : Mode} {cs : List Char}

theorem next_of_rest_eq_nil (h : s.rest = []) : s.next = (.ok (.finish s.offset), s) := by
  simp [next, h]

/-- Either the text is at its end, or the longest lexeme at its front becomes the token. -/
theorem next_ok (h : s.next = (.ok t, s')) : (s.rest = [] ∧ t = .finish s.offset ∧ s' = s) ∨
    ∃ size lexeme, (munch s.mode s.rest).best = some (size, lexeme) ∧
      token ⟨s.offset, s.offset + size - 1⟩ (s.rest.take size) lexeme = .ok t ∧
      s'.rest = s.rest.drop size ∧ s'.offset = s.offset + size ∧
      s'.modes = modesAfter s.modes t := by
  by_cases hrest : s.rest = []
  · rw [next_of_rest_eq_nil hrest] at h
    cases h
    exact Or.inl ⟨hrest, rfl, rfl⟩
  · simp only [next, List.isEmpty_iff, hrest, if_false] at h
    split at h
    · cases h
    · rename_i size lexeme hbest
      split at h
      · cases h
      · rename_i hok
        cases h
        exact Or.inr ⟨size, lexeme, hbest, hok, rfl, rfl, rfl⟩

theorem next_of_token {size : Nat} {lexeme : Lexeme}
    (hbest : (munch s.mode s.rest).best = some (size, lexeme))
    (htoken : token ⟨s.offset, s.offset + size - 1⟩ (s.rest.take size) lexeme = .ok t) :
    ∃ s', s.next = (.ok t, s') ∧ s'.rest = s.rest.drop size ∧ s'.offset = s.offset + size ∧
      s'.modes = modesAfter s.modes t := by
  have hrest : s.rest ≠ [] := fun hnil => by
    rw [hnil] at hbest
    cases hbest
  simp only [next, List.isEmpty_iff, hrest, if_false, hbest, htoken]
  exact ⟨_, rfl, rfl, rfl, rfl⟩

/-- The characters that change the modes. -/
def modeChars : List Char := ['<', ':', '[', ']', '>']

theorem modesAfter_of_char? (ht : t.char? ∉ modeChars.map some) (modes : List Mode) :
    modesAfter modes t = modes := by
  unfold modesAfter
  split
  case h_8 => rfl
  all_goals
    rename_i hchar
    exact absurd (hchar ▸ by decide) ht

theorem modesAfter_of_kind {kind : TokenKind} (ht : t.type = kind.type) (modes : List Mode) :
    modesAfter modes t = modes := by
  refine modesAfter_of_char? ?_ modes
  rw [Token.char?, ht]
  cases kind <;> decide

theorem modesAfter_of_isTrivia (ht : t.isTrivia = true) (modes : List Mode) :
    modesAfter modes t = modes :=
  modesAfter_of_kind (show t.type = TokenKind.whitespace.type from beq_iff_eq.mp ht) modes

theorem modesAfter_of_isEnd (ht : t.isEnd = true) (modes : List Mode) :
    modesAfter modes t = modes :=
  modesAfter_of_kind (show t.type = TokenKind.finish.type from beq_iff_eq.mp ht) modes

theorem accepts_ne_punct {phase next : Phase} {kind : CharClass} (hphase : phase ≠ .start)
    (hnext : phase.next kind = some next) : next ≠ .start ∧ next.accepts ≠ some .punct := by
  cases phase <;> cases kind <;> first
    | exact absurd rfl hphase
    | (cases hnext; done)
    | (cases hnext; exact ⟨by decide, by decide⟩)

theorem reads_ne_punct {phase : Phase} (hphase : phase ≠ .start)
    (haccepts : phase.accepts ≠ some .punct) : phase.reads mode cs ≠ some .punct := by
  induction cs generalizing phase with
  | nil => exact haccepts
  | cons c cs ih =>
    rw [Phase.reads_cons]
    intro h
    obtain ⟨next, hnext, hreads⟩ := Option.bind_eq_some_iff.mp h
    obtain ⟨hstart, hpunct⟩ := accepts_ne_punct hphase hnext
    exact ih hstart hpunct hreads

theorem exists_of_lexeme?_punct (h : lexeme? mode cs = some .punct) :
    ∃ c, cs = [c] ∧ mode.classify c ≠ .error := by
  cases cs with
  | nil => cases h
  | cons c cs =>
    rw [lexeme?, Phase.reads_cons] at h
    obtain ⟨next, hnext, hreads⟩ := Option.bind_eq_some_iff.mp h
    have herror : mode.classify c ≠ .error := fun he => by simp [he, Phase.next] at hnext
    cases cs with
    | nil => exact ⟨c, rfl, herror⟩
    | cons d cs =>
      rw [Phase.reads_cons] at hreads
      obtain ⟨last, hlast, hreads⟩ := Option.bind_eq_some_iff.mp hreads
      have hstart : next ≠ .start := by
        generalize mode.classify c = kind at hnext
        rintro rfl
        cases kind <;> cases hnext
      obtain ⟨hstart, hpunct⟩ := accepts_ne_punct hstart hlast
      exact absurd hreads (reads_ne_punct hstart hpunct)

theorem type_punct_ne {c : Char} (span : Span) (kind : TokenKind) (h : mode.classify c ≠ .error) :
    (Token.punct span c).type ≠ kind.type := by
  have herror : mode.classify (Char.ofNat kind.type.toNat) = .error := by
    cases kind <;> cases mode <;> decide
  refine fun (hval : c.val = kind.type) => h ?_
  have hchar : c = Char.ofNat kind.type.toNat := by
    rw [← hval]
    exact (Char.ofNat_toNat c).symm
  rwa [hchar]

theorem isEnd_punct {c : Char} (span : Span) (h : mode.classify c ≠ .error) :
    (Token.punct span c).isEnd = false :=
  beq_false_of_ne (type_punct_ne span .finish h)

theorem not_isEnd_of_token {span : Span} {lexeme : Lexeme} (hlexeme : lexeme? mode cs = some lexeme)
    (h : token span cs lexeme = .ok t) : t.isEnd = false := by
  cases lexeme with
  | punct =>
    obtain ⟨c, rfl, hc⟩ := exists_of_lexeme?_punct hlexeme
    cases h
    exact isEnd_punct span hc
  | blank => cases h; rfl
  | string => cases h; rfl
  | ident =>
    cases h
    rw [identToken]
    split
    · rfl
    · split <;> rfl
  | int =>
    simp only [token, intToken] at h
    split at h <;> cases h
    rfl
  | float =>
    simp only [token, floatToken] at h
    split at h <;> cases h
    rfl

theorem span_identToken (span : Span) (name : String) : (identToken span name).span = span := by
  rw [identToken]
  split_ifs <;> rfl

theorem span_of_token {span : Span} {lexeme : Lexeme} (h : token span cs lexeme = .ok t) :
    t.span = span := by
  cases lexeme with
  | punct | blank | string => cases h; rfl
  | ident =>
    cases h
    exact span_identToken span _
  | int =>
    simp only [token, intToken] at h
    split at h <;> cases h
    rfl
  | float =>
    simp only [token, floatToken] at h
    split at h <;> cases h
    rfl

/-- At the end of the text the end token is given; before it a token takes some characters, and its
span says which. -/
theorem next_cases (h : s.next = (.ok t, s')) :
    (t.isEnd = true ∧ s.rest = [] ∧ t = .finish s.offset ∧ s' = s) ∨
      (t.isEnd = false ∧ ∃ size, 0 < size ∧ size ≤ s.rest.length ∧
        t.span = ⟨s.offset, s.offset + size - 1⟩ ∧ s'.rest = s.rest.drop size ∧
        s'.offset = s.offset + size) := by
  rcases next_ok h with ⟨hrest, rfl, hstate⟩ | ⟨size, lexeme, hbest, htoken, hrest, hoffset, -⟩
  · exact Or.inl ⟨rfl, hrest, rfl, hstate⟩
  · obtain ⟨hsize, hlexeme, -⟩ := best_munch_iff.mp hbest
    exact Or.inr ⟨not_isEnd_of_token hlexeme htoken, size, pos_of_lexeme? hlexeme, hsize,
      span_of_token htoken, hrest, hoffset⟩

theorem length_lt_of_next (h : s.next = (.ok t, s')) (hrest : s.rest ≠ []) :
    s'.rest.length < s.rest.length ∧ t.isEnd = false := by
  rcases next_cases h with ⟨-, hnil, -⟩ | ⟨hend, size, hpos, hsize, -, hdrop, -⟩
  · exact absurd hnil hrest
  · rw [hdrop, List.length_drop]
    exact ⟨by omega, hend⟩

theorem spent_of_rest_eq_nil (h : s.rest = []) : Spent source s := by
  refine ⟨fun s => s.rest = [], h, fun s t s' hs (hnext : s.next = _) => ?_⟩
  rw [next_of_rest_eq_nil hs] at hnext
  cases hnext
  exact ⟨rfl, hs⟩

theorem spent_of_error {err : ParseError} (h : s.next = (.error err, s')) : Spent source s := by
  refine ⟨fun state => state = s, rfl, fun state t state' hs (hnext : state.next = _) => ?_⟩
  rw [hs, h] at hnext
  cases hnext

theorem exists_supplies (s : Scanner) : ∃ ts, Supplies source ts s := by
  induction hn : s.rest.length using Nat.strong_induction_on generalizing s with
  | _ n ih =>
    by_cases hrest : s.rest = []
    · exact ⟨[], .spent (spent_of_rest_eq_nil hrest)⟩
    · rcases hnext : s.next with ⟨err | t, s'⟩
      · exact ⟨[], .spent (spent_of_error hnext)⟩
      · obtain ⟨hlt, -⟩ := length_lt_of_next hnext hrest
        obtain ⟨ts, hts⟩ := ih _ (hn ▸ hlt) s' rfl
        exact ⟨t :: ts, .token hnext hts⟩

theorem delivers_or_breaks (s : Scanner) : (∃ ts, Delivers source ts s) ∨ Breaks source s := by
  induction hn : s.rest.length using Nat.strong_induction_on generalizing s with
  | _ n ih =>
    by_cases hrest : s.rest = []
    · exact Or.inl ⟨[], .finish (next_of_rest_eq_nil hrest) rfl⟩
    · rcases hnext : s.next with ⟨err | t, s'⟩
      · exact Or.inr (.error hnext)
      · obtain ⟨hlt, hend⟩ := length_lt_of_next hnext hrest
        rcases ih _ (hn ▸ hlt) s' rfl with ⟨ts, hts⟩ | hbreaks
        · exact Or.inl ⟨t :: ts, .token hnext hend hts⟩
        · exact Or.inr (.token hnext hend hbreaks)

/-! What tokens hold, and why there is none. -/

theorem typed_identToken (span : Span) (text : String) : (identToken span text).Typed := by
  rw [identToken]
  split_ifs
  · exact .of_ne nofun nofun nofun
  · exact .of_ne nofun nofun nofun
  · exact ⟨nofun, nofun, fun _ => ⟨text, rfl⟩⟩

theorem typed_of_token {lexeme : Lexeme} (hlexeme : lexeme? mode cs = some lexeme)
    (h : token span cs lexeme = .ok t) : t.Typed := by
  cases lexeme with
  | punct =>
    obtain ⟨c, rfl, hc⟩ := exists_of_lexeme?_punct hlexeme
    cases h
    exact .of_ne (type_punct_ne span _ hc) (type_punct_ne span _ hc) (type_punct_ne span _ hc)
  | blank | string =>
    cases h
    exact .of_ne nofun nofun nofun
  | ident =>
    cases h
    exact typed_identToken span _
  | int =>
    simp only [token, intToken] at h
    split at h <;> cases h
    exact ⟨fun _ => ⟨_, rfl⟩, nofun, nofun⟩
  | float =>
    simp only [token, floatToken] at h
    split at h <;> cases h
    exact ⟨nofun, fun _ => ⟨_, rfl⟩, nofun⟩

theorem typed_of_next (h : s.next = (.ok t, s')) : t.Typed := by
  rcases next_ok h with ⟨-, rfl, -⟩ | ⟨size, lexeme, hbest, htoken, -⟩
  · exact .of_ne nofun nofun nofun
  · exact typed_of_token (best_munch_iff.mp hbest).2.1 htoken

theorem typed_of_taken {first last : Scanner} {ts : List Token} (h : Taken source first ts last) :
    ∀ t ∈ ts, t.Typed := by
  induction h with
  | none => exact nofun
  | next _ hnext ih =>
    exact List.forall_mem_append.mpr ⟨ih, List.forall_mem_singleton.mpr (typed_of_next hnext)⟩

theorem token_error {lexeme : Lexeme} {err : ParseError} (h : token span cs lexeme = .error err) :
    ∃ found, err = .lexical span found := by
  cases lexeme with
  | punct | blank | string | ident => cases h
  | int =>
    simp only [token, intToken] at h
    split at h <;> cases h
    exact ⟨_, rfl⟩
  | float =>
    simp only [token, floatToken] at h
    split at h <;> cases h
    exact ⟨_, rfl⟩

theorem next_error {err : ParseError} (h : s.next = (.error err, s')) :
    (∃ span found, err = .lexical span found) ∨ ∃ span, err = .unexpectedEnd span := by
  unfold next at h
  split at h
  · cases h
  · simp only at h
    split at h
    · cases h
      unfold stuck
      split
      · exact Or.inl ⟨_, _, rfl⟩
      · exact Or.inr ⟨_, rfl⟩
    · split at h
      · rename_i herror
        cases h
        exact Or.inl ⟨_, token_error herror⟩
      · cases h

/-- A call that fails counts what it read; nothing else changes. -/
theorem next_error_state {err : ParseError} (h : s.next = (.error err, s')) :
    s'.rest = s.rest ∧ s'.offset = s.offset ∧ s'.modes = s.modes := by
  unfold next at h
  split at h
  · cases h
  · simp only at h
    split at h
    · cases h
      exact ⟨rfl, rfl, rfl⟩
    · split at h <;> cases h
      exact ⟨rfl, rfl, rfl⟩

/-! All tokens at once. -/

def drained (fuel : Nat) (s : Scanner) : Except ParseError (List Token) :=
  (drainFrom fuel s).mapM Prod.fst

theorem drained_of_error {err : ParseError} (fuel : Nat) (h : s.next = (.error err, s')) :
    drained (fuel + 1) s = .error err := by
  simp only [drained, drainFrom, h]
  rfl

theorem drained_of_ok (fuel : Nat) (h : s.next = (.ok t, s')) : drained (fuel + 1) s =
    if t.isEnd then .ok [t] else (drained fuel s').map (t :: ·) := by
  simp only [drained, drainFrom, h]
  split
  · rfl
  · rw [List.mapM_cons]
    cases (drainFrom fuel s').mapM Prod.fst <;> rfl

theorem rest_ne_nil (h : s.next = (.ok t, s')) (ht : t.isEnd = false) : s.rest ≠ [] := by
  intro hrest
  rw [next_of_rest_eq_nil hrest] at h
  cases h
  cases ht

theorem drained_of_delivers {ts : List Token} (h : Delivers source ts s) {fuel : Nat}
    (hfuel : s.rest.length < fuel) :
    ∃ last, last.isEnd = true ∧ drained fuel s = .ok (ts ++ [last]) := by
  induction h generalizing fuel with
  | @finish t s s' hnext hend =>
    obtain ⟨fuel, rfl⟩ := Nat.exists_eq_add_one.mpr (Nat.zero_lt_of_lt hfuel)
    exact ⟨t, hend, by rw [drained_of_ok fuel hnext, if_pos hend]; rfl⟩
  | @token t ts s s' hnext hend _ ih =>
    obtain ⟨fuel, rfl⟩ := Nat.exists_eq_add_one.mpr (Nat.zero_lt_of_lt hfuel)
    obtain ⟨hlt, -⟩ := length_lt_of_next hnext (rest_ne_nil hnext hend)
    obtain ⟨last, hlast, hdrain⟩ := ih (Nat.lt_of_lt_of_le hlt (Nat.le_of_lt_succ hfuel))
    refine ⟨last, hlast, ?_⟩
    rw [drained_of_ok fuel hnext, hend, hdrain]
    rfl

theorem drained_of_breaks (h : Breaks source s) {fuel : Nat} (hfuel : s.rest.length < fuel) :
    ∃ err, drained fuel s = .error err := by
  induction h generalizing fuel with
  | @error err s s' hnext =>
    obtain ⟨fuel, rfl⟩ := Nat.exists_eq_add_one.mpr (Nat.zero_lt_of_lt hfuel)
    exact ⟨err, drained_of_error fuel hnext⟩
  | @token t s s' hnext hend _ ih =>
    obtain ⟨fuel, rfl⟩ := Nat.exists_eq_add_one.mpr (Nat.zero_lt_of_lt hfuel)
    obtain ⟨hlt, -⟩ := length_lt_of_next hnext (rest_ne_nil hnext hend)
    obtain ⟨err, hdrain⟩ := ih (Nat.lt_of_lt_of_le hlt (Nat.le_of_lt_succ hfuel))
    refine ⟨err, ?_⟩
    rw [drained_of_ok fuel hnext, hend, hdrain]
    rfl

theorem scanAll_eq (s : Scanner) (text : String) :
    (s.scanAll text).1 = drained ((s.setInput text).rest.length + 1) (s.setInput text) := rfl

/-- Scanning a whole text fails, or gives what the scanner yields token by token. -/
theorem scanAll_cases (s : Scanner) (text : String) :
    (∃ ts last, Delivers source ts (s.setInput text) ∧ last.isEnd = true ∧
        (s.scanAll text).1 = .ok (ts ++ [last])) ∨
      (Breaks source (s.setInput text) ∧ ∃ err, (s.scanAll text).1 = .error err) := by
  have hfuel := Nat.lt_succ_self (s.setInput text).rest.length
  rw [scanAll_eq]
  rcases delivers_or_breaks (s.setInput text) with ⟨ts, hts⟩ | hbreaks
  · obtain ⟨last, hlast, hdrain⟩ := drained_of_delivers hts hfuel
    exact Or.inl ⟨ts, last, hts, hlast, hdrain⟩
  · exact Or.inr ⟨hbreaks, drained_of_breaks hbreaks hfuel⟩

end Scanner

theorem Breaks.not_isEnd {σ : Type} {source : Source σ} {first state : σ} {ts : List Token}
    (h : Breaks source first) (htaken : Taken source first ts state) :
    Breaks source state ∧ ∀ t ∈ ts, t.isEnd = false := by
  induction htaken with
  | none => exact ⟨h, fun t ht => absurd ht List.not_mem_nil⟩
  | @next ts t state state' _ hnext ih =>
    obtain ⟨hstate, hts⟩ := ih
    cases hstate with
    | error herror => cases herror.symm.trans hnext
    | token hnext' hend hbreaks =>
      cases hnext'.symm.trans hnext
      refine ⟨hbreaks, fun u hu => ?_⟩
      rcases List.mem_append.mp hu with hu | hu
      · exact hts u hu
      · rwa [List.mem_singleton.mp hu]

end CanonicalLR
