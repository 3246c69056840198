import CanonicalLR.Proofs.Scanner.LongestMatch
import CanonicalLR.Proofs.Scanner.Yields

/-! Blanks between tokens. Put in where a token begins, they change nothing but the places of the
tokens behind them: in front of them the longest lexemes stay the longest ones, and behind them the
scanner is in the same modes. -/

namespace CanonicalLR

/-- The token with all places from one on moved by some characters. -/
def Token.shifted (place count : Nat) (t : Token) : Token :=
  let move (p : Nat) : Nat := if p < place then p else p + count
  { t with span := ⟨move t.span.start, move t.span.stop⟩ }

namespace Scanner

variable {s s' s₁ s₂ last : Scanner} {t : Token} {ts : List Token} {text : String}
  {cs rest front back blanks : List Char} {mode : Mode} {lexeme : Lexeme} {size place count : Nat}
  {c : Char} {scan solids : List (Token × Mode)} {result : Except ParseError (List Token)}

abbrev shiftScan (place count : Nat) (scan : List (Token × Mode)) : List (Token × Mode) :=
  scan.map fun x => (x.1.shifted place count, x.2)

/-- The tokens up to the end token, each with the mode it is scanned in. -/
inductive Scans : Scanner → List (Token × Mode) → Prop where
  | finish {t : Token} {s s' : Scanner} : s.next = (.ok t, s') → t.isEnd = true →
      Scans s [(t, s.mode)]
  | token {t : Token} {s s' : Scanner} {scan : List (Token × Mode)} : s.next = (.ok t, s') →
      t.isEnd = false → Scans s' scan → Scans s ((t, s.mode) :: scan)

/-- What is left of them without the blanks. -/
def ScansSolid (s : Scanner) (solids : List (Token × Mode)) : Prop :=
  ∃ scan, Scans s scan ∧ solidScan scan = solids

/-- The same text in the same modes, some characters further on. -/
structure Ahead (count : Nat) (s s' : Scanner) : Prop where
  rest : s'.rest = s.rest
  modes : s'.modes = s.modes
  offset : s'.offset = s.offset + count

/-! Lexemes and blanks. -/

theorem isDigit_of_mem_blankChars (h : c ∈ blankChars) : c.isDigit = false := by
  have hall : blankChars.all (fun c => !c.isDigit) = true := rfl
  simpa using List.all_eq_true.mp hall c h

theorem nameRest_of_mem_blankChars (h : c ∈ blankChars) : nameRest mode c = false := by
  have hall : blankChars.all (fun c => !nameRest mode c) = true := by cases mode <;> rfl
  simpa using List.all_eq_true.mp hall c h

theorem nameRest_of_nameStart (h : nameStart mode c = true) : nameRest mode c = true := by
  simp only [nameStart, nameRest, Bool.or_eq_true, Bool.and_eq_true, decide_eq_true_eq] at h ⊢
  tauto

theorem not_mem_of_power {e : Int} (h : Decimal.Power cs e) (hc : c ∈ blankChars) : c ∉ cs := by
  have hdigits : ∀ {ds : List Char}, Decimal.AllDigits ds → c ∉ ds := fun hds hmem =>
    Bool.false_ne_true ((isDigit_of_mem_blankChars hc).symm.trans (hds.digit c hmem))
  have hmark : ∀ {mark : Char}, mark = 'e' ∨ mark = 'E' → c ≠ mark := by
    rintro mark (rfl | rfl) rfl <;> exact absurd hc (by simp [blankChars])
  have hsign : c ≠ '+' ∧ c ≠ '-' := by
    constructor <;> rintro rfl <;> exact absurd hc (by simp [blankChars])
  cases h with
  | none => exact List.not_mem_nil
  | plain hm hds => simp [hmark hm, hdigits hds]
  | plus hm hds => simp [hmark hm, hsign.1, hdigits hds]
  | minus hm hds => simp [hmark hm, hsign.2, hdigits hds]

theorem not_mem_of_fractional {v : ℚ} (h : Decimal.Fractional cs v) (hc : c ∈ blankChars) :
    c ∉ cs := by
  have hdigits : ∀ {ds : List Char}, (∀ d ∈ ds, d.isDigit = true) → c ∉ ds := fun hds hmem =>
    Bool.false_ne_true ((isDigit_of_mem_blankChars hc).symm.trans (hds c hmem))
  have hpoint : c ≠ '.' := by
    rintro rfl
    exact absurd hc (by simp [blankChars])
  cases h with
  | point hwhole hfraction hpower =>
    simp [hdigits hwhole.digit, hpoint, hdigits hfraction, not_mem_of_power hpower hc]
  | bare hfraction hpower =>
    simp [hpoint, hdigits hfraction.digit, not_mem_of_power hpower hc]
  | whole hwhole _ hpower => simp [hdigits hwhole.digit, not_mem_of_power hpower hc]

theorem Lexical.blank_or_string (h : Lexical mode lexeme cs) (hmem : c ∈ cs) (hc : c ∈ blankChars) :
    (∀ d ∈ cs, d ∈ blankChars) ∨ ∃ body, '"' ∉ body ∧ cs = '"' :: (body ++ ['"']) := by
  cases h with
  | @ident first cs hfirst hcs =>
    have hname : nameRest mode c = true := by
      rcases List.mem_cons.mp hmem with rfl | hmem
      · exact nameRest_of_nameStart hfirst
      · exact hcs c hmem
    exact absurd hname (Bool.eq_false_iff.mp (nameRest_of_mem_blankChars hc))
  | int hds =>
    exact absurd (hds.digit c hmem) (Bool.eq_false_iff.mp (isDigit_of_mem_blankChars hc))
  | float _ hcs => exact absurd hmem (not_mem_of_fractional hcs hc)
  | string hbody => exact Or.inr ⟨_, hbody, rfl⟩
  | blank _ hcs => exact Or.inl hcs
  | symbol hsymbol =>
    have hclass := (classify_of_mem_symbolChars hsymbol).symm.trans
      (classify_of_mem_blankChars (List.mem_singleton.mp hmem ▸ hc) : mode.classify _ = _)
    cases hclass
  | mark _ hmark =>
    obtain rfl := List.mem_singleton.mp hmem
    rcases hmark with rfl | rfl | rfl <;> exact absurd hc (by simp [blankChars])

theorem quote_not_mem_blankChars : '"' ∉ blankChars := by simp [blankChars]

theorem Lexical.string_of_quote (h : Lexical mode lexeme ('"' :: cs)) :
    ∃ body, '"' ∉ body ∧ cs = body ++ ['"'] := by
  have hlexeme := lexeme?_iff.mpr h
  have hquote : Phase.start.next (mode.classify '"') = some .inString := by cases mode <;> rfl
  rw [lexeme?, Phase.reads_cons, hquote] at hlexeme
  exact (reads_inString hlexeme).2

theorem Lexical.le_of_string {body : List Char} (hbody : '"' ∉ body)
    (h : Lexical mode lexeme (('"' :: (body ++ ['"'])).take size)) : body.length + 2 ≤ size := by
  obtain ⟨k, rfl⟩ : ∃ k, size = k + 1 := by
    refine Nat.exists_eq_add_one.mpr (Nat.pos_of_ne_zero fun hzero => ?_)
    subst hzero
    cases lexeme?_iff.mpr h
  rw [List.take_succ_cons] at h
  obtain ⟨inner, -, hinner⟩ := h.string_of_quote
  by_contra hlt
  rw [List.take_append_of_le_length (by omega)] at hinner
  exact hbody (List.mem_of_mem_take (hinner ▸ List.mem_concat_self))

/-- Blanks behind some of the characters do not make the lexeme in front of them longer, unless
there are only blanks. -/
theorem Longest.spaced (h : Longest mode (front ++ back) lexeme size) (hsize : size ≤ front.length)
    (hfront : ¬ ∀ d ∈ front, d ∈ blankChars) (hne : blanks ≠ [])
    (hblanks : ∀ d ∈ blanks, d ∈ blankChars) :
    Longest mode (front ++ (blanks ++ back)) lexeme size := by
  obtain ⟨-, hlexical, hlast⟩ := h
  rw [List.take_append_of_le_length hsize] at hlexical
  refine ⟨by rw [List.length_append]; omega, by rwa [List.take_append_of_le_length hsize], ?_⟩
  intro other k hk hle hother
  rcases le_or_gt k front.length with hshort | hlong
  · rw [List.take_append_of_le_length hshort] at hother
    refine hlast other k hk (by rw [List.length_append]; omega) ?_
    rwa [List.take_append_of_le_length hshort]
  · obtain ⟨c, blanks, rfl⟩ := List.exists_cons_of_ne_nil hne
    obtain ⟨i, rfl⟩ := Nat.exists_eq_add_of_lt hlong
    have htake : (front ++ (c :: blanks ++ back)).take (front.length + i + 1) =
        front ++ c :: (blanks ++ back).take i := by
      rw [Nat.add_assoc, List.take_length_add_append, List.cons_append, List.take_succ_cons]
    have hfirst : (front ++ c :: (blanks ++ back).take i).take size = front.take size :=
      List.take_append_of_le_length hsize
    rw [htake] at hother
    rcases hother.blank_or_string (List.mem_append_right _ List.mem_cons_self)
      (hblanks c List.mem_cons_self) with hall | ⟨body, hbody, hstring⟩
    · exact hfront fun d hd => hall d (List.mem_append_left _ hd)
    · rw [← hfirst, hstring] at hlexical
      have hlength := congrArg List.length hstring
      have hwhole := hlexical.le_of_string hbody
      simp only [List.length_append, List.length_cons, List.length_nil] at hlength
      omega

theorem longest_blanks (hne : cs ≠ []) (hcs : ∀ d ∈ cs, d ∈ blankChars)
    (hrest : ∀ d, rest.head? = some d → d ∉ blankChars) :
    Longest mode (cs ++ rest) .blank cs.length := by
  refine ⟨by simp, by rw [List.take_left]; exact .blank hne hcs, fun other k hk hle hother => ?_⟩
  obtain ⟨i, rfl⟩ := Nat.exists_eq_add_of_lt hk
  obtain ⟨c, cs, rfl⟩ := List.exists_cons_of_ne_nil hne
  cases rest with
  | nil =>
    rw [List.append_nil] at hle
    omega
  | cons d rest =>
    rw [Nat.add_assoc, List.take_length_add_append, List.take_succ_cons] at hother
    have hc := hcs c List.mem_cons_self
    rcases hother.blank_or_string List.mem_cons_self hc with hall | ⟨body, -, hstring⟩
    · exact hrest d rfl (hall d (List.mem_append_right _ List.mem_cons_self))
    · rw [(List.cons.inj hstring).1] at hc
      exact quote_not_mem_blankChars hc

/-! Further on in the text. -/

theorem token_of_span {span : Span} (span' : Span) (h : token span cs lexeme = .ok t) :
    token span' cs lexeme = .ok { t with span := span' } := by
  cases lexeme with
  | punct | blank | string =>
    cases h
    rfl
  | ident =>
    cases h
    simp only [token, identToken]
    split_ifs <;> rfl
  | int =>
    simp only [token, intToken] at h ⊢
    split at h <;> cases h
    rfl
  | float =>
    simp only [token, floatToken] at h ⊢
    split at h <;> cases h
    rfl

theorem Ahead.mode_eq (h : Ahead count s s') : s'.mode = s.mode := by
  rw [Scanner.mode, Scanner.mode, h.modes]

theorem Ahead.next (h : Ahead count s s') (hnext : s.next = (.ok t, s₁)) :
    ∃ s₁', s'.next = (.ok (t.shifted 0 count), s₁') ∧ Ahead count s₁ s₁' := by
  rcases next_ok hnext with ⟨hrest, rfl, rfl⟩ | ⟨size, lexeme, hbest, htoken, hrest, hoffset, hmodes⟩
  · refine ⟨s', ?_, h⟩
    rw [next_of_rest_eq_nil (h.rest.trans hrest), h.offset]
    rfl
  · rw [← h.mode_eq, ← h.rest] at hbest
    have hspan := span_of_token htoken
    have hpos : 0 < size := pos_of_lexeme? (best_munch_iff.mp hbest).2.1
    have htoken' := token_of_span ⟨s'.offset, s'.offset + size - 1⟩ htoken
    rw [← h.rest] at htoken'
    obtain ⟨s₁', hnext', hrest', hoffset', hmodes'⟩ := next_of_token hbest htoken'
    have hshifted : t.shifted 0 count = { t with span := ⟨s'.offset, s'.offset + size - 1⟩ } := by
      simp only [Token.shifted, hspan, Nat.not_lt_zero, if_false, h.offset]
      congr 2
      omega
    refine ⟨s₁', hshifted ▸ hnext', ?_, ?_, ?_⟩
    · rw [hrest', hrest, h.rest]
    · rw [hmodes', hmodes, h.modes]
      rfl
    · rw [hoffset', hoffset, h.offset, Nat.add_right_comm]

theorem Scans.ahead (h : Scans s scan) (ha : Ahead count s s') :
    Scans s' (shiftScan 0 count scan) := by
  induction h generalizing s' with
  | finish hnext hend =>
    obtain ⟨s₁', hnext', -⟩ := ha.next hnext
    rw [shiftScan, List.map_singleton, ← ha.mode_eq]
    exact .finish hnext' hend
  | token hnext hend _ ih =>
    obtain ⟨s₁', hnext', ha'⟩ := ha.next hnext
    rw [shiftScan, List.map_cons, ← ha.mode_eq]
    exact .token hnext' hend (ih ha')

theorem solidScan_shiftScan (place count : Nat) (scan : List (Token × Mode)) :
    solidScan (shiftScan place count scan) = shiftScan place count (solidScan scan) :=
  List.filter_map

theorem ScansSolid.ahead (h : ScansSolid s solids) (ha : Ahead count s s') :
    ScansSolid s' (shiftScan 0 count solids) := by
  obtain ⟨scan, hscan, rfl⟩ := h
  exact ⟨_, hscan.ahead ha, solidScan_shiftScan 0 count scan⟩

theorem ScansSolid.same (h : ScansSolid s solids) (ha : Ahead 0 s s') : ScansSolid s' solids := by
  have hsame : shiftScan 0 0 solids = solids := List.map_id solids
  exact hsame ▸ h.ahead ha

/-! Skipping blanks. -/

theorem scansSolid_iff (hnext : s.next = (.ok t, s₁)) (htrivia : t.isTrivia = true)
    (hend : t.isEnd = false) : ScansSolid s solids ↔ ScansSolid s₁ solids := by
  constructor
  · rintro ⟨scan, hscan, rfl⟩
    cases hscan with
    | finish hnext' hend' =>
      cases hnext.symm.trans hnext'
      cases hend.symm.trans hend'
    | token hnext' _ hscan =>
      cases hnext.symm.trans hnext'
      exact ⟨_, hscan, (solidScan_cons_of_isTrivia htrivia _ _).symm⟩
  · rintro ⟨scan, hscan, rfl⟩
    exact ⟨_, .token hnext hend hscan, solidScan_cons_of_isTrivia htrivia _ scan⟩

/-- The scanner behind some of its characters. -/
def skip (s : Scanner) (cs rest : List Char) : Scanner :=
  { s with rest := rest, offset := s.offset + cs.length }

theorem scansSolid_skip_all (hrest : s.rest = cs ++ rest) (hcs : ∀ d ∈ cs, d ∈ blankChars)
    (hhead : ∀ d, rest.head? = some d → d ∉ blankChars) :
    ScansSolid s solids ↔ ScansSolid (s.skip cs rest) solids := by
  rcases eq_or_ne cs [] with rfl | hne
  · exact ⟨fun h => h.same ⟨hrest.symm, rfl, rfl⟩, fun h => h.same ⟨hrest, rfl, rfl⟩⟩
  · have hlongest : Longest s.mode s.rest .blank cs.length := hrest ▸ longest_blanks hne hcs hhead
    obtain ⟨s₁, hnext, hrest₁, hoffset₁, hmodes₁⟩ := next_of_token (longest_iff.mp hlongest) rfl
    have hmodes : s₁.modes = s.modes := hmodes₁.trans (modesAfter_of_isTrivia rfl _)
    rw [hrest, List.drop_left] at hrest₁
    rw [scansSolid_iff hnext rfl rfl]
    exact ⟨fun h => h.same ⟨hrest₁.symm, hmodes.symm, hoffset₁.symm⟩,
      fun h => h.same ⟨hrest₁, hmodes, hoffset₁⟩⟩

/-- Leading blanks may be left out, whether or not they are all the leading blanks. -/
theorem scansSolid_skip (hrest : s.rest = cs ++ rest) (hcs : ∀ d ∈ cs, d ∈ blankChars) :
    ScansSolid s solids ↔ ScansSolid (s.skip cs rest) solids := by
  obtain ⟨more, core, rfl, hmore, hhead⟩ : ∃ more core, rest = more ++ core ∧
      (∀ d ∈ more, d ∈ blankChars) ∧ ∀ d, core.head? = some d → d ∉ blankChars := by
    refine ⟨rest.takeWhile (· ∈ blankChars), rest.dropWhile (· ∈ blankChars),
      List.takeWhile_append_dropWhile.symm, fun d hd => ?_, fun d hd => ?_⟩
    · simpa using List.mem_takeWhile_imp hd
    · have hnot := List.head?_dropWhile_not (fun d => decide (d ∈ blankChars)) rest
      rw [hd] at hnot
      simpa using hnot
  have hall : ∀ d ∈ cs ++ more, d ∈ blankChars := List.forall_mem_append.mpr ⟨hcs, hmore⟩
  rw [scansSolid_skip_all (hrest.trans (List.append_assoc cs more core).symm) hall hhead,
    scansSolid_skip_all (s := s.skip cs (more ++ core)) rfl hmore hhead]
  have hsame : (s.skip cs (more ++ core)).skip more core = s.skip (cs ++ more) core := by
    simp only [skip, List.length_append, Nat.add_assoc]
  rw [hsame]

/-! Blanks at the start of a token. -/

theorem shifted_of_le (hstart : place ≤ t.span.start) (hstop : t.span.start ≤ t.span.stop) :
    t.shifted place count = t.shifted 0 count := by
  simp only [Token.shifted, Nat.not_lt_zero, if_false, Nat.not_lt.mpr hstart,
    Nat.not_lt.mpr (hstart.trans hstop)]

theorem shifted_of_lt (hstart : t.span.start < place) (hstop : t.span.stop < place) :
    t.shifted place count = t := by
  simp only [Token.shifted, hstart, hstop, if_true]

theorem Scans.places (h : Scans s scan) : ∀ x ∈ scan, s.offset ≤ x.1.span.start ∧
    x.1.span.start ≤ x.1.span.stop ∧ x.1.span.start ≤ s.offset + s.rest.length := by
  induction h with
  | finish hnext hend =>
    rcases next_cases hnext with ⟨-, -, rfl, -⟩ | ⟨hend', -⟩
    · exact List.forall_mem_singleton.mpr ⟨le_rfl, le_rfl, Nat.le_add_right _ _⟩
    · cases hend.symm.trans hend'
  | token hnext hend _ ih =>
    rcases next_cases hnext with ⟨hend', -⟩ | ⟨-, size, hpos, hsize, hspan, hrest, hoffset⟩
    · cases hend.symm.trans hend'
    · rw [hrest, hoffset, List.length_drop] at ih
      refine List.forall_mem_cons.mpr ⟨?_, fun x hx => ?_⟩
      · rw [hspan]
        exact ⟨le_rfl, by dsimp only; omega, Nat.le_add_right _ _⟩
      · obtain ⟨hstart, hstop, hend⟩ := ih x hx
        exact ⟨by omega, hstop, by omega⟩

/-- Two scanners at the same place, where the second one has blanks put in behind some of the
characters. -/
structure Spaced (front blanks back : List Char) (s s' : Scanner) : Prop where
  rest : s.rest = front ++ back
  spaced : s'.rest = front ++ (blanks ++ back)
  modes : s'.modes = s.modes
  offset : s'.offset = s.offset

theorem Spaced.mode_eq (hs : Spaced front blanks back s s') : s'.mode = s.mode := by
  rw [Scanner.mode, Scanner.mode, hs.modes]

/-- Behind blanks only, the new blanks are skipped together with them. -/
theorem Spaced.scansSolid (hs : Spaced front blanks back s s') (h : ScansSolid s solids)
    (hfront : ∀ d ∈ front, d ∈ blankChars) (hblanks : ∀ d ∈ blanks, d ∈ blankChars) :
    ScansSolid s' (shiftScan (s.offset + front.length) blanks.length solids) := by
  have hback := (scansSolid_skip hs.rest hfront).mp h
  have hahead : Ahead blanks.length (s.skip front back) (s'.skip (front ++ blanks) back) := by
    refine ⟨rfl, hs.modes, ?_⟩
    simp only [skip, hs.offset, List.length_append, Nat.add_assoc]
  have hshift : shiftScan (s.offset + front.length) blanks.length solids =
      shiftScan 0 blanks.length solids := by
    obtain ⟨scan, hscan, rfl⟩ := hback
    refine List.map_congr_left fun x hx => ?_
    obtain ⟨hstart, hstop, -⟩ := hscan.places x (List.mem_of_mem_filter hx)
    exact congrArg (·, x.2) (shifted_of_le hstart hstop)
  have hrest := hs.spaced
  rw [← List.append_assoc] at hrest
  rw [hshift, scansSolid_skip hrest (List.forall_mem_append.mpr ⟨hfront, hblanks⟩)]
  exact hback.ahead hahead

/-- A token in front of the new blanks stays the same. -/
theorem Spaced.next (hs : Spaced front blanks back s s') (hnext : s.next = (.ok t, s₁))
    (hend : t.isEnd = false) (hfront : ¬ ∀ d ∈ front, d ∈ blankChars)
    (hplace : s₁.offset ≤ s.offset + front.length) (hne : blanks ≠ [])
    (hblanks : ∀ d ∈ blanks, d ∈ blankChars) :
    ∃ s₁' later, s'.next = (.ok t, s₁') ∧ Spaced later blanks back s₁ s₁' ∧
      s₁.offset + later.length = s.offset + front.length := by
  rcases next_ok hnext with ⟨-, rfl, -⟩ | ⟨size, lexeme, hbest, htoken, hrest, hoffset, hmodes⟩
  · cases hend
  have hsize : size ≤ front.length := by omega
  have hlongest : Longest s'.mode s'.rest lexeme size := by
    rw [hs.mode_eq, hs.spaced]
    exact (hs.rest ▸ longest_iff.mpr hbest).spaced hsize hfront hne hblanks
  have htoken' : token ⟨s'.offset, s'.offset + size - 1⟩ (s'.rest.take size) lexeme = .ok t := by
    rw [hs.rest, List.take_append_of_le_length hsize] at htoken
    rw [hs.offset, hs.spaced, List.take_append_of_le_length hsize, htoken]
  obtain ⟨s₁', hnext', hrest', hoffset', hmodes'⟩ :=
    next_of_token (longest_iff.mp hlongest) htoken'
  rw [hs.rest, List.drop_append_of_le_length hsize] at hrest
  rw [hs.spaced, List.drop_append_of_le_length hsize] at hrest'
  refine ⟨s₁', front.drop size, hnext', ⟨hrest, hrest', ?_, ?_⟩, ?_⟩
  · rw [hmodes', hmodes, hs.modes]
  · rw [hoffset', hoffset, hs.offset]
  · rw [hoffset, List.length_drop]
    omega

/-- Blanks in front of a token move the solid tokens from there on and nothing else. -/
theorem Scans.spaced (h : Scans s scan) (hs : Spaced front blanks back s s')
    (hplace : front = [] ∨ ∃ x ∈ scan, x.1.span.start = s.offset + front.length)
    (hne : blanks ≠ []) (hblanks : ∀ d ∈ blanks, d ∈ blankChars) :
    ScansSolid s' (shiftScan (s.offset + front.length) blanks.length (solidScan scan)) := by
  induction h generalizing front s' with
  | @finish t s s₁ hnext hend =>
    rcases next_cases hnext with ⟨-, hnil, -⟩ | ⟨hend', -⟩
    · obtain ⟨rfl, -⟩ := List.append_eq_nil_iff.mp (hs.rest.symm.trans hnil)
      exact hs.scansSolid ⟨_, .finish hnext hend, rfl⟩ nofun hblanks
    · cases hend.symm.trans hend'
  | @token t s s₁ scan hnext hend hscan ih =>
    by_cases hfront : ∀ d ∈ front, d ∈ blankChars
    · exact hs.scansSolid ⟨_, .token hnext hend hscan, rfl⟩ hfront hblanks
    rcases next_cases hnext with ⟨hend', -⟩ | ⟨-, size, hpos, -, hspan, -, hoffset⟩
    · cases hend.symm.trans hend'
    have hpos' : 0 < front.length := List.length_pos_of_ne_nil fun hnil =>
      hfront (hnil ▸ List.forall_mem_nil _)
    -- the blanks come in where a later token begins
    obtain ⟨x, hx, hstart⟩ : ∃ x ∈ scan, x.1.span.start = s.offset + front.length := by
      rcases hplace with rfl | ⟨x, hx, hstart⟩
      · exact absurd hpos' (Nat.lt_irrefl 0)
      · rcases List.mem_cons.mp hx with rfl | hx
        · rw [hspan] at hstart
          dsimp only at hstart
          omega
        · exact ⟨x, hx, hstart⟩
    have hbehind := (hscan.places x hx).1
    obtain ⟨s₁', later, hnext', hs₁, hlater⟩ :=
      hs.next hnext hend hfront (by omega) hne hblanks
    obtain ⟨scan', hscan', hsolid⟩ := ih hs₁ (Or.inr ⟨x, hx, hlater ▸ hstart⟩)
    rw [hlater] at hsolid
    refine ⟨_, .token hnext' hend hscan', ?_⟩
    have hsame : t.shifted (s.offset + front.length) blanks.length = t := by
      refine shifted_of_lt ?_ ?_ <;> rw [hspan] <;> dsimp only <;> omega
    cases htrivia : t.isTrivia with
    | true => rw [solidScan_cons_of_isTrivia htrivia, solidScan_cons_of_isTrivia htrivia, hsolid]
    | false =>
      rw [solidScan_cons htrivia, solidScan_cons htrivia, hsolid, hs.mode_eq, shiftScan, shiftScan,
        List.map_cons, hsame]

/-! Whole texts. -/

theorem Collects.unique {result' : Except ParseError (List Token)} {last' : Scanner}
    (h : Collects s result last) (h' : Collects s result' last') :
    result' = result ∧ last' = last := by
  induction h generalizing result' last' with
  | error hnext =>
    cases h' with
    | error hnext' =>
      cases hnext.symm.trans hnext'
      exact ⟨rfl, rfl⟩
    | finish hnext' | token hnext' => cases hnext.symm.trans hnext'
  | finish hnext hend =>
    cases h' with
    | error hnext' =>
      cases hnext.symm.trans hnext'
    | finish hnext' =>
      cases hnext.symm.trans hnext'
      exact ⟨rfl, rfl⟩
    | token hnext' hend' =>
      cases hnext.symm.trans hnext'
      cases hend.symm.trans hend'
  | token hnext hend _ ih =>
    cases h' with
    | error hnext' =>
      cases hnext.symm.trans hnext'
    | finish hnext' hend' =>
      cases hnext.symm.trans hnext'
      cases hend.symm.trans hend'
    | token hnext' _ hlater =>
      cases hnext.symm.trans hnext'
      obtain ⟨rfl, rfl⟩ := ih hlater
      exact ⟨rfl, rfl⟩

theorem Collects.scans (h : Collects s result last) (hresult : result = .ok ts) :
    ∃ scan, Scans s scan ∧ Yields s scan last ∧ ts = scan.map (·.1) := by
  induction h generalizing ts with
  | error => cases hresult
  | finish hnext hend =>
    cases hresult
    exact ⟨_, .finish hnext hend, .cons hnext .nil, rfl⟩
  | token hnext hend _ ih =>
    obtain ⟨later, rfl, rfl⟩ := map_ok hresult
    obtain ⟨scan, hscan, hyields, rfl⟩ := ih rfl
    exact ⟨_, .token hnext hend hscan, .cons hnext hyields, rfl⟩

theorem Scans.collects (h : Scans s scan) :
    ∃ last, Collects s (.ok (scan.map (·.1))) last ∧ Yields s scan last := by
  induction h with
  | finish hnext hend => exact ⟨_, .finish hnext hend, .cons hnext .nil⟩
  | token hnext hend _ ih =>
    obtain ⟨last, hcollects, hyields⟩ := ih
    exact ⟨last, .token hnext hend hcollects, .cons hnext hyields⟩

/-- The end of the text is the place of a token as well, that of the end token. -/
theorem exists_place (h : (s.scanAll text).1 = .ok ts)
    (hplace : place = text.length ∨ ∃ t ∈ ts, t.span.start = place) :
    ∃ t ∈ ts, t.span.start = place := by
  obtain ⟨front, rfl, -⟩ := (collects_scanAll s text).tiles (placed_setInput s text) h
  rcases hplace with rfl | hmem
  · exact ⟨_, List.mem_concat_self, String.length_toList⟩
  · exact hmem

theorem spaced_setInput (s : Scanner) (text : String) (blanks : List Char) (place : Nat) :
    Spaced (text.toList.take place) blanks (text.toList.drop place) (s.setInput text)
      (s.setInput (String.ofList (text.toList.take place ++ blanks ++ text.toList.drop place))) := by
  refine ⟨(List.take_append_drop place text.toList).symm, ?_, rfl, rfl⟩
  rw [← List.append_assoc]
  exact String.toList_ofList

/-- Blanks put in where a token begins, or at the end, change nothing but the places behind them. -/
theorem scanAll_spaced {s : Scanner} {text blanks : String} {ts : List Token} {place : Nat}
    (hscan : (s.scanAll text).1 = .ok ts)
    (hplace : place = 0 ∨ place = text.length ∨ ∃ t ∈ ts, t.span.start = place)
    (hne : blanks ≠ "") (hblanks : ∀ c ∈ blanks.toList, c ∈ blankChars) :
    let spaced := String.ofList
      (text.toList.take place ++ blanks.toList ++ text.toList.drop place)
    ∃ scan scan', ts = scan.map (·.1) ∧ Yields (s.setInput text) scan (s.scanAll text).2 ∧
      (s.scanAll spaced).1 = .ok (scan'.map (·.1)) ∧
      Yields (s.setInput spaced) scan' (s.scanAll spaced).2 ∧
      solidScan scan' =
        (solidScan scan).map fun x => (x.1.shifted place blanks.length, x.2) := by
  intro spaced
  obtain ⟨scan, hscans, hyields, rfl⟩ := (collects_scanAll s text).scans hscan
  have hstart : place = 0 ∨ ∃ x ∈ scan, x.1.span.start = place := by
    refine hplace.imp_right fun h => ?_
    obtain ⟨t, ht, hstart⟩ := exists_place hscan h
    obtain ⟨x, hx, rfl⟩ := List.mem_map.mp ht
    exact ⟨x, hx, hstart⟩
  have hlength : (s.setInput text).offset + (text.toList.take place).length = place := by
    have hle : place ≤ text.toList.length := by
      rcases hstart with rfl | ⟨x, hx, rfl⟩
      · exact Nat.zero_le _
      · exact (hscans.places x hx).2.2.trans_eq (Nat.zero_add _)
    rw [List.length_take_of_le hle]
    exact Nat.zero_add place
  have hfront : text.toList.take place = [] ∨ ∃ x ∈ scan, x.1.span.start =
      (s.setInput text).offset + (text.toList.take place).length := by
    rw [hlength]
    exact hstart.imp_left fun hzero => by rw [hzero, List.take_zero]
  obtain ⟨scan', hscans', hsolid⟩ :=
    hscans.spaced (spaced_setInput s text blanks.toList place) hfront
      (fun hnil => hne (String.toList_eq_nil_iff.mp hnil)) hblanks
  rw [hlength, String.length_toList] at hsolid
  obtain ⟨last, hcollects, hyields'⟩ := hscans'.collects
  obtain ⟨hresult, hlast⟩ := hcollects.unique (collects_scanAll s spaced)
  exact ⟨scan, scan', rfl, hyields, hresult, hlast ▸ hyields', hsolid⟩

/-- In `3e+` blanks may come in where the scanner went back for want of a power of ten. -/
theorem rewound_scanAll_spaced : ∃ scan scan',
    scan.map (·.1) = [⟨⟨0, 0⟩, TokenKind.int.type, .int 3⟩,
      ⟨⟨1, 1⟩, TokenKind.ident.type, .ident "e"⟩, .punct ⟨2, 2⟩ '+', .finish 3] ∧
    (({} : Scanner).scanAll "3 \te+").1 = .ok (scan'.map (·.1)) ∧
    solidScan scan' = (solidScan scan).map fun x => (x.1.shifted 1 2, x.2) := by
  have hscan : (({} : Scanner).scanAll "3e+").1 = .ok [⟨⟨0, 0⟩, TokenKind.int.type, .int 3⟩,
      ⟨⟨1, 1⟩, TokenKind.ident.type, .ident "e"⟩, .punct ⟨2, 2⟩ '+', .finish 3] := rfl
  obtain ⟨scan, scan', hscan, -, hscan', -, hsolid⟩ :=
    @scanAll_spaced {} "3e+" " \t" _ 1 hscan (Or.inr (Or.inr ⟨_, .tail _ (.head _), rfl⟩))
      (by decide) (by simp [blankChars])
  exact ⟨scan, scan', hscan.symm, hscan', hsolid⟩

end Scanner

end CanonicalLR
