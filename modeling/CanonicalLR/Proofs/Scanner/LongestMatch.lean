import CanonicalLR.Proofs.Scanner.Lexical
import CanonicalLR.Proofs.Scanner.Runs

/-! What a call of the scanner gives. Before the end of the text it is the token of the longest
lexeme there, whose value is that of its characters; and the few reasons for a call to fail are said
without the automaton. -/

namespace CanonicalLR.Scanner

open Decimal (AllDigits Fractional RoundsTo)
open Text (maxInt64 natOfDigits)

variable {s s' : Scanner} {t : Token} {text : String} {cs : List Char} {mode : Mode}
  {lexeme : Lexeme} {size : Nat} {c : Char}

/-- The longest lexeme at the front of the characters. -/
structure Longest (mode : Mode) (cs : List Char) (lexeme : Lexeme) (size : Nat) : Prop where
  within : size ≤ cs.length
  lexical : Lexical mode lexeme (cs.take size)
  last : ∀ other k, size < k → k ≤ cs.length → ¬ Lexical mode other (cs.take k)

/-- The type and the value of the token of a lexeme. -/
inductive Holds : Lexeme → List Char → TokenType → Payload → Prop where
  | ident {name : String} : name ≠ "true" → name ≠ "false" →
      Holds .ident name.toList TokenKind.ident.type (.ident name)
  | yes : Holds .ident "true".toList TokenKind.bool.type (.bool true)
  | no : Holds .ident "false".toList TokenKind.bool.type (.bool false)
  | int {ds : List Char} : natOfDigits ds ≤ maxInt64 →
      Holds .int ds TokenKind.int.type (.int (natOfDigits ds))
  | float {cs : List Char} {v : ℚ} {x : Float} : Fractional cs v → RoundsTo v (.ofFloat x) →
      Holds .float cs TokenKind.float.type (.float x)
  | string {body : List Char} :
      Holds .string ('"' :: (body ++ ['"'])) TokenKind.str.type (.str (String.ofList body))
  | blank {cs : List Char} : Holds .blank cs TokenKind.whitespace.type .none
  | punct {c : Char} : Holds .punct [c] c.val .none

/-- The token of the longest lexeme, and the scanner behind it. -/
structure Cuts (s : Scanner) (t : Token) (s' : Scanner) (lexeme : Lexeme) (size : Nat) : Prop where
  longest : Longest s.mode s.rest lexeme size
  span : t.span = ⟨s.offset, s.offset + size - 1⟩
  holds : Holds lexeme (s.rest.take size) t.type t.payload
  offset : s'.offset = s.offset + size
  rest : s'.rest = s.rest.drop size

/-- Why there is no token: a character that nothing begins with, a string without an end, or a whole
number that is too large. -/
inductive Refused (text : String) (s : Scanner) : ParseError → Prop where
  | character {c : Char} {cs : List Char} : s.rest = c :: cs → CharClass.of c = .error →
      Refused text s (.lexical (.single s.offset) c.toString)
  | unclosed {cs : List Char} : s.rest = '"' :: cs → '"' ∉ cs →
      Refused text s (.unexpectedEnd (.single text.length))
  | tooLarge {size : Nat} : Longest s.mode s.rest .int size →
      maxInt64 < natOfDigits (s.rest.take size) →
      Refused text s (.lexical ⟨s.offset, s.offset + size - 1⟩ (String.ofList (s.rest.take size)))

/-! The longest lexeme. -/

theorem longest_iff : Longest mode cs lexeme size ↔ (munch mode cs).best = some (size, lexeme) := by
  rw [best_munch_iff]
  constructor
  · rintro ⟨hwithin, hlexical, hlast⟩
    refine ⟨hwithin, lexeme?_iff.mpr hlexical, fun k hk hle => ?_⟩
    exact Option.eq_none_iff_forall_not_mem.mpr
      fun other hother => hlast other k hk hle (lexeme?_iff.mp hother)
  · rintro ⟨hwithin, hlexeme, hlast⟩
    refine ⟨hwithin, lexeme?_iff.mp hlexeme, fun other k hk hle hother => ?_⟩
    cases (hlast k hk hle).symm.trans (lexeme?_iff.mpr hother)

theorem munch_of_error (h : CharClass.of c = .error) : munch mode (c :: cs) = ⟨0, none⟩ := by
  rw [munch, munchFrom, Mode.classify, h]
  rfl

theorem munchFrom_inString (h : '"' ∉ cs) (m : Munch) :
    munchFrom mode .inString m cs = ⟨m.taken + cs.length, m.best⟩ := by
  induction cs generalizing m with
  | nil => rfl
  | cons c cs ih =>
    obtain ⟨hc, hcs⟩ := not_or.mp (mt List.mem_cons.mpr h)
    rw [munchFrom_cons (next_inString (Ne.symm hc)), ih hcs, List.length_cons, Nat.add_assoc,
      Nat.add_comm 1]
    rfl

theorem munch_of_unclosed (h : '"' ∉ cs) : munch mode ('"' :: cs) = ⟨cs.length + 1, none⟩ := by
  have hquote : Phase.start.next (mode.classify '"') = some .inString := by cases mode <;> rfl
  rw [munch, munchFrom_cons hquote, munchFrom_inString h, Nat.add_comm]
  rfl

theorem of_error (h : mode.classify c = .error) : CharClass.of c = .error := by
  rw [Mode.classify] at h
  generalize CharClass.of c = kind at h ⊢
  cases kind <;> cases hmode : mode.inReference <;> simp [hmode] at h ⊢

theorem exists_lexical (mode : Mode) (c : Char) (cs : List Char) :
    CharClass.of c = .error ∨ (c = '"' ∧ '"' ∉ cs) ∨
      ∃ n lexeme, n ≤ (c :: cs).length ∧ Lexical mode lexeme ((c :: cs).take n) := by
  have hclass := classified mode c
  cases hkind : mode.classify c <;> rw [hkind] at hclass
  case error => exact Or.inl (of_error hkind)
  case quote =>
    obtain rfl : c = '"' := hclass
    by_cases hmem : '"' ∈ cs
    · obtain ⟨body, rest, rfl, hbody⟩ := List.eq_append_cons_of_mem hmem
      refine Or.inr (Or.inr ⟨body.length + 2, .string, by simp, ?_⟩)
      have htake : ('"' :: (body ++ '"' :: rest)).take (body.length + 2) = '"' :: (body ++ ['"']) := by
        rw [List.take_succ_cons, List.take_length_add_append, List.take_succ_cons, List.take_zero]
      rw [htake]
      exact .string hbody
    · exact Or.inr (Or.inl ⟨rfl, hmem⟩)
  -- the others are lexemes themselves
  all_goals refine Or.inr (Or.inr ⟨1, ?_⟩)
  case sign => exact ⟨.punct, Nat.succ_pos _, .mark hclass.1 (hclass.2.imp_right Or.inl)⟩
  case symbol => exact ⟨.punct, Nat.succ_pos _, .symbol hclass⟩
  case exponent =>
    refine ⟨.ident, Nat.succ_pos _, .ident ?_ nofun⟩
    rcases hclass.2 with rfl | rfl <;> rfl
  case alpha => exact ⟨.ident, Nat.succ_pos _, .ident hclass nofun⟩
  case digit => exact ⟨.int, Nat.succ_pos _, .int ⟨nofun, List.forall_mem_singleton.mpr hclass⟩⟩
  case dot => exact ⟨.punct, Nat.succ_pos _, .mark hclass.1 (Or.inr (Or.inr hclass.2))⟩
  case whitespace => exact ⟨.blank, Nat.succ_pos _, .blank nofun (List.forall_mem_singleton.mpr hclass)⟩

/-! The token of a lexeme. -/

theorem holds_identToken (span : Span) (name : String) :
    Holds .ident name.toList (identToken span name).type (identToken span name).payload := by
  rw [identToken]
  split_ifs with htrue hfalse
  · subst htrue
    exact .yes
  · subst hfalse
    exact .no
  · exact .ident htrue hfalse

theorem Holds.le_maxInt64 {type : TokenType} {payload : Payload} (h : Holds .int cs type payload) :
    natOfDigits cs ≤ maxInt64 := by
  cases h with
  | int hle => exact hle

theorem token_cases (span : Span) (h : Lexical mode lexeme cs) :
    (∃ t, token span cs lexeme = .ok t ∧ t.span = span ∧ Holds lexeme cs t.type t.payload) ∨
      (lexeme = .int ∧ maxInt64 < natOfDigits cs ∧
        token span cs lexeme = .error (.lexical span (String.ofList cs))) := by
  cases h with
  | @ident c cs =>
    have hholds := holds_identToken span (String.ofList (c :: cs))
    rw [String.toList_ofList] at hholds
    exact Or.inl ⟨_, rfl, span_identToken span _, hholds⟩
  | int hds =>
    by_cases hle : natOfDigits cs ≤ maxInt64
    · refine Or.inl ⟨⟨span, TokenKind.int.type, .int (natOfDigits cs)⟩, ?_, rfl, .int hle⟩
      simp only [token, intToken, Text.readNat_eq hds.ne_nil hds.digit, if_pos hle]
    · refine Or.inr ⟨rfl, Nat.lt_of_not_le hle, ?_⟩
      simp only [token, intToken, Text.readNat_eq hds.ne_nil hds.digit, if_neg hle]
  | float _ hcs =>
    obtain ⟨x, hread, hround⟩ := hcs.read
    refine Or.inl ⟨⟨span, TokenKind.float.type, .float x⟩, ?_, rfl, .float hcs hround⟩
    simp only [token, floatToken, hread]
  | @string body =>
    refine Or.inl ⟨⟨span, TokenKind.str.type, .str (String.ofList body)⟩, ?_, rfl, .string⟩
    simp only [token, List.drop_succ_cons, List.drop_zero, List.dropLast_concat]
  | blank => exact Or.inl ⟨_, rfl, rfl, .blank⟩
  | symbol => exact Or.inl ⟨_, rfl, rfl, .punct⟩
  | mark => exact Or.inl ⟨_, rfl, rfl, .punct⟩

/-! Calls. -/

theorem next_of_best (h : (munch s.mode s.rest).best = some (size, lexeme)) :
    s.next.1 = token ⟨s.offset, s.offset + size - 1⟩ (s.rest.take size) lexeme := by
  have hrest : s.rest ≠ [] := fun hnil => by
    rw [hnil] at h
    cases h
  simp only [next, List.isEmpty_iff, hrest, if_false, h]
  split <;> rename_i hok <;> exact hok.symm

theorem next_of_best_none (hrest : s.rest ≠ []) (h : (munch s.mode s.rest).best = none) :
    s.next.1 = .error (s.stuck (munch s.mode s.rest).taken) := by
  simp only [next, List.isEmpty_iff, hrest, if_false, h]

theorem cuts_of_next (h : s.next = (.ok t, s')) (hrest : s.rest ≠ []) :
    ∃ lexeme size, Cuts s t s' lexeme size := by
  rcases next_ok h with ⟨hnil, -⟩ | ⟨size, lexeme, hbest, htoken, hdrop, hoffset, -⟩
  · exact absurd hnil hrest
  · have hlongest := longest_iff.mpr hbest
    rcases token_cases ⟨s.offset, s.offset + size - 1⟩ hlongest.lexical with
      ⟨found, hfound, hspan, hholds⟩ | ⟨-, -, herror⟩
    · cases htoken.symm.trans hfound
      exact ⟨lexeme, size, hlongest, hspan, hholds, hoffset, hdrop⟩
    · cases htoken.symm.trans herror

theorem next_of_refused {err : ParseError} (hs : Placed text.toList s) (h : Refused text s err) :
    s.next.1 = .error err := by
  cases h with
  | @character c cs hrest hclass =>
    have hmunch : munch s.mode s.rest = ⟨0, none⟩ := hrest ▸ munch_of_error hclass
    rw [next_of_best_none (by simp [hrest]) (by rw [hmunch]), hmunch, stuck, hrest]
    rfl
  | @unclosed cs hrest hquote =>
    have hmunch : munch s.mode s.rest = ⟨cs.length + 1, none⟩ := hrest ▸ munch_of_unclosed hquote
    have hlength : s.offset + s.rest.length = text.length := by
      rw [hs.rest, List.length_drop, String.length_toList]
      have := hs.le
      rw [String.length_toList] at this
      omega
    rw [next_of_best_none (by simp [hrest]) (by rw [hmunch]), hmunch, stuck, hlength]
    simp [hrest]
  | tooLarge hlongest hlarge =>
    rw [next_of_best (longest_iff.mp hlongest)]
    rcases token_cases ⟨s.offset, s.offset + _ - 1⟩ hlongest.lexical with
      ⟨t, -, -, hholds⟩ | ⟨-, -, herror⟩
    · exact absurd hlarge (Nat.not_lt.mpr hholds.le_maxInt64)
    · exact herror

theorem refused_of_next {err : ParseError} (hs : Placed text.toList s) (hrest : s.rest ≠ [])
    (h : s.next.1 = .error err) : Refused text s err := by
  have hdecides : ∀ {err'}, Refused text s err' → Refused text s err := by
    intro err' h'
    cases (next_of_refused hs h').symm.trans h
    exact h'
  obtain ⟨c, cs, hcs⟩ := List.exists_cons_of_ne_nil hrest
  rcases exists_lexical s.mode c cs with hclass | ⟨rfl, hquote⟩ | ⟨n, lexeme, hn, hlexical⟩
  · exact hdecides (.character hcs hclass)
  · exact hdecides (.unclosed hcs hquote)
  · rw [← hcs] at hn hlexical
    obtain ⟨k, found, hlongest⟩ : ∃ k found, Longest s.mode s.rest found k := by
      have hlexeme : lexeme? s.mode (s.rest.take n) ≠ none := by
        rw [lexeme?_iff.mpr hlexical]
        exact Option.some_ne_none _
      obtain ⟨k, found, hk⟩ := exists_longest hn hlexeme
      exact ⟨k, found, longest_iff.mpr (best_munch_iff.mpr hk)⟩
    rw [next_of_best (longest_iff.mp hlongest)] at h
    rcases token_cases ⟨s.offset, s.offset + k - 1⟩ hlongest.lexical with
      ⟨t, htoken, -⟩ | ⟨rfl, hlarge, -⟩
    · cases htoken.symm.trans h
    · exact hdecides (.tooLarge hlongest hlarge)

/-- Before the end of the text the scanner cuts off the longest lexeme of its mode, and fails just
where there is none or its number is too large. A call that fails does not move. -/
theorem next_longest (h : Reached text s) (hs : s.offset < text.length) :
    s.rest = text.toList.drop s.offset ∧
    (∀ t s', s.next = (.ok t, s') → ∃ lexeme size, Cuts s t s' lexeme size) ∧
    (∀ err, s.next.1 = .error err ↔ Refused text s err) ∧
    ∀ err s', s.next = (.error err, s') →
      s'.rest = s.rest ∧ s'.offset = s.offset ∧ s'.modes = s.modes := by
  have hplaced := h.placed
  have hrest : s.rest ≠ [] := fun hnil => by
    have hoffset := hplaced.offset_eq hnil
    rw [String.length_toList] at hoffset
    omega
  exact ⟨hplaced.rest, fun t s' hnext => cuts_of_next hnext hrest,
    fun err => ⟨refused_of_next hplaced hrest, next_of_refused hplaced⟩,
    fun err s' hnext => next_error_state hnext⟩

/-- In a reference `1.e` is a number and a name, and then a string is not closed. -/
theorem opened_next_longest : ∃ s, Reached "<1.e\"" s ∧ s.mode = .bracket ∧ s.offset < 5 ∧
    s.rest = ['"'] ∧ s.next.1 = .error (.unexpectedEnd (.single 5)) := by
  let first := (Scanner.setInput {} "<1.e\"").next.2
  let s := first.next.2.next.2
  have hreached : Reached "<1.e\"" s := .next (.next (.next (.input _ .new)))
  have hoffset : s.offset = 4 := rfl
  obtain ⟨hrest, -, herrors, -⟩ := next_longest hreached (show s.offset < "<1.e\"".length by decide)
  have hrest' : s.rest = ['"'] := by rw [hrest, hoffset]; rfl
  exact ⟨s, hreached, rfl, by omega, hrest', (herrors _).mpr (.unclosed hrest' nofun)⟩

end CanonicalLR.Scanner
