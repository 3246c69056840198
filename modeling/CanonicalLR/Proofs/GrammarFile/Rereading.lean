import CanonicalLR.Proofs.GrammarFile.Printing

/-! Grammar files in writing are read again: comments and blank lines leave no trace, and every
production has the number of its line. -/

namespace CanonicalLR.GrammarFile

open CanonicalLR.Text

variable {file : GrammarFile} {rows : List Row} {level : Int} {t : Terminal} {part : Part}
  {d : Declaration} {p : Production} {s : Statement} {line : Nat}

/-! Statements are read as they were written. -/

theorem readTerminal_word (h : t ∈ Terminal.written) : readTerminal line t.word = .ok t := by
  rcases List.mem_append.mp h with hmem | hmem
  · obtain ⟨c, hc, rfl⟩ := List.mem_map.mp hmem
    rfl
  · obtain ⟨k, hk, rfl⟩ := List.mem_map.mp hmem
    simp only [List.mem_cons, List.not_mem_nil, or_false] at hk
    rcases hk with rfl | rfl | rfl | rfl | rfl <;> rfl

theorem readPart_word (h : part.isWritten = true) : readPart line part.word = .ok part := by
  cases part with
  | nonterminal name => simp [readPart, Part.word, Word.text]
  | terminal t =>
    have hread : readTerminal line t.word = .ok t :=
      readTerminal_word (List.contains_iff_mem.mp h)
    have hkind : t.word.kind ≠ .var := by cases t <;> simp [Terminal.word]
    rw [readPart, Part.word, if_neg hkind, hread]
    rfl

theorem readLevel_levelWord (h : IsLevel level) : readLevel line (levelWord level) = .ok level := by
  obtain ⟨n, rfl⟩ := Int.eq_ofNat_of_zero_le h.1
  have hn : n ≤ maxInt32 := Int.ofNat_le.mp h.2
  simp only [readLevel, levelWord, toList_level, readNat_toDigits hn, if_true]

theorem readDeclaration_words (h : d.Printable) {directive : String} :
    readDeclaration line d.assoc directive
      (levelWord d.level :: d.terminals.map Terminal.word) = .ok d := by
  have hread : (d.terminals.map Terminal.word).mapM (readTerminal line) = .ok d.terminals :=
    mapM_map_eq_ok fun t ht => readTerminal_word (h.terminals t ht)
  have hnonempty : d.terminals.isEmpty = false := List.isEmpty_eq_false_iff.mpr h.nonempty
  simp only [readDeclaration, List.head?_cons, readLevel_levelWord h.level, List.drop_one,
    List.tail_cons, hread, bind, Except.bind, hnonempty]
  rfl

theorem isPrec_word : isPrec part.word = false := by
  cases part with
  | nonterminal name => rfl
  | terminal t => cases t <;> rfl

theorem cutPrec_words (h : p.Printable) :
    cutPrec line (p.rhs.map Part.word ++ p.prec.elim [] precWords) =
      .ok (p.rhs.map Part.word, p.prec) := by
  have hrhs : (p.rhs.map Part.word).findIdx? isPrec = none := by
    rw [List.findIdx?_eq_none_iff]
    rintro w hw
    obtain ⟨part, -, rfl⟩ := List.mem_map.mp hw
    exact isPrec_word
  cases hprec : p.prec with
  | none => simp [cutPrec, hrhs]
  | some level =>
    have hlevel : readLevel line (levelWord level) = .ok level :=
      readLevel_levelWord (h.prec level hprec)
    have hat : (precWords level).findIdx? isPrec = some 0 := by rfl
    have hget : (p.rhs.map Part.word ++ precWords level)[(p.rhs.map Part.word).length + 1]? =
        some (levelWord level) := by
      rw [List.getElem?_append_right (Nat.le_add_right _ 1), Nat.add_sub_cancel_left]
      rfl
    simp only [cutPrec, Option.elim_some, List.findIdx?_append, hrhs, hat, Option.map_some,
      Option.none_or, Nat.zero_add, hget, hlevel, List.length_append, List.take_left']
    exact if_pos rfl

theorem readProduction_words (h : p.Printable) :
    readProduction line p.words = .ok { p with line } := by
  have hcut : cutLabel p.words = (p.label, ⟨.var, p.lhs.toList⟩ :: ⟨.arrow, "->".toList⟩ ::
      (p.rhs.map Part.word ++ p.prec.elim [] precWords)) := by
    unfold Production.words
    cases p.label with
    | none => rfl
    | some name => simp [cutLabel, labelWord]
  have hread : (p.rhs.map Part.word).mapM (readPart line) = .ok p.rhs :=
    mapM_map_eq_ok fun part hpart => readPart_word (h.rhs part hpart)
  simp only [readProduction, hcut, and_self, if_true, cutPrec_words h, bind, Except.bind, hread,
    Word.text, String.ofList_toList]

/-- What a statement adds to a file. -/
def Statement.extend (file : GrammarFile) (line : Nat) : Statement → GrammarFile
  | start name => { file with start := some name }
  | declaration d => { file with declarations := file.declarations ++ [d] }
  | production p => { file with productions := file.productions ++ [{ p with line }] }

theorem assocOf?_assocWord (assoc : Assoc) :
    (assocWord assoc).text ≠ "%start" ∧ assocOf? (assocWord assoc).text = some assoc := by
  cases assoc <;> decide

theorem readLine_words (h : s.Printable) :
    file.readLine (line, s.words) = .ok (s.extend file line) := by
  cases s with
  | start name =>
    simp [Statement.words, readLine, readDirective, readStart, Word.text, Statement.extend, bind,
      Except.bind]
  | declaration d =>
    obtain ⟨hstart, hassoc⟩ := assocOf?_assocWord d.assoc
    have hkind : (assocWord d.assoc).kind = .directive := by cases d.assoc <;> rfl
    simp only [Statement.words, Declaration.words, readLine, if_pos hkind, readDirective,
      if_neg hstart, hassoc, readDeclaration_words h, bind, Except.bind, Statement.extend]
  | production p =>
    obtain ⟨w, ws, hws, hkind⟩ : ∃ w ws, p.words = w :: ws ∧ w.kind ≠ .directive := by
      unfold Production.words
      cases p.label with
      | none => exact ⟨_, _, rfl, WordKind.noConfusion⟩
      | some name => exact ⟨_, _, rfl, WordKind.noConfusion⟩
    have hread : readProduction line p.words = .ok { p with line } := readProduction_words h
    rw [Statement.words, hws, readLine, if_neg hkind, ← hws, hread]
    rfl

theorem wordLines_printed (hne : rows ≠ []) (hformed : ∀ row ∈ rows, row.Formed)
    (hrows : ∀ row ∈ rows, ∀ s ∈ row.statement, s.Printable) :
    wordLines (printed rows).toList = .ok (((rows.zipIdx 1).map fun entry =>
      (entry.2, entry.1.words)).filter fun entry => !entry.2.isEmpty) := by
  have hfields : fields '\n' (printed rows).toList = rows.map Row.chars := by
    rw [printed, String.toList_ofList]
    refine fields_intercalate (by simpa using hne) fun line hline => ?_
    obtain ⟨row, hrow, rfl⟩ := List.mem_map.mp hline
    exact (hformed row hrow).feed_notMem (hrows row hrow)
  have hread : ∀ entry ∈ rows.zipIdx 1, (numberedWords ∘ Prod.map Row.chars id) entry =
      .ok (entry.2, entry.1.words) := by
    intro entry hentry
    have hrow := List.fst_mem_of_mem_zipIdx hentry
    simp only [Function.comp, Prod.map, numberedWords, id,
      (hformed entry.1 hrow).words_chars (hrows entry.1 hrow)]
    rfl
  simp only [wordLines, hfields, List.zipIdx_map, List.mapM_map, mapM_eq_ok hread, bind, Except.bind]

theorem length_productionLines (first : Nat) :
    (productionLines first rows).length = (rows.filterMap Row.production?).length := by
  induction rows generalizing first with
  | nil => rfl
  | cons row rows ih =>
    have ih := ih (first + 1)
    simp only [productionLines, List.length_map] at ih ⊢
    rw [List.zipIdx_cons, List.filterMap_cons]
    cases hp : row.production? with
    | none => simp [hp, ih]
    | some p => simp [hp, ih]

theorem foldlM_rows (file : GrammarFile) (first : Nat)
    (hrows : ∀ row ∈ rows, ∀ s ∈ row.statement, s.Printable) :
    (rows.zipIdx first).foldlM (fun file entry => file.readLine (entry.2, entry.1.words)) file =
      .ok ⟨(rows.filterMap Row.start?).getLast?.or file.start,
        file.declarations ++ rows.filterMap Row.declaration?,
        file.productions ++ (rows.filterMap Row.production?).zipWith
          (fun p line => { p with line }) (productionLines first rows)⟩ := by
  induction rows generalizing first file with
  | nil => simp; rfl
  | cons row rows ih =>
    rw [List.forall_mem_cons] at hrows
    cases hs : row.statement with
    | none =>
      have hread : file.readLine (first, row.words) = .ok file := by
        rw [Row.words_of_none hs]
        rfl
      simp [List.foldlM_cons, hread, bind, Except.bind, ih _ _ hrows.2, Row.start?, Row.declaration?,
        Row.production?, hs, productionLines]
    | some s =>
      have hread : file.readLine (first, row.words) = .ok (s.extend file first) := by
        rw [Row.words_of_some hs, readLine_words (hrows.1 s hs)]
      simp only [List.zipIdx_cons, List.foldlM_cons, hread, bind, Except.bind, ih _ _ hrows.2]
      -- of the three lists only the one for this sort of statements gains an entry
      cases s with
      | start name =>
        simp [Row.start?, Row.declaration?, Row.production?, hs, productionLines, Statement.extend,
          Statement.start?, Statement.declaration?, Statement.production?, List.getLast?_cons]
      | declaration d | production p =>
        simp [Row.start?, Row.declaration?, Row.production?, hs, productionLines, Statement.extend,
          Statement.start?, Statement.declaration?, Statement.production?]

/-- What is read from the text of a file is the file, with the numbers of the lines in the text. -/
theorem parse_printed (hfile : file.Printable) (hlayout : Layout file rows) :
    (productionLines 1 rows).length = file.productions.length ∧
      parse (printed rows) = .ok { file with
        productions := file.productions.zipWith (fun p line => { p with line })
          (productionLines 1 rows) } := by
  have hrows : ∀ row ∈ rows, ∀ s ∈ row.statement, s.Printable :=
    fun row hrow s hs => hlayout.printable hfile hrow hs
  have hlength : (productionLines 1 rows).length = file.productions.length := by
    rw [length_productionLines, hlayout.productions]
  have hne : rows ≠ [] := by
    rintro rfl
    exact hfile.nonempty hlayout.productions.symm
  have hnumbers : productionLines 1 rows ≠ [] := by
    rw [← List.length_pos_iff, hlength]
    exact List.length_pos_iff.mpr hfile.nonempty
  -- a second start line would count, but the layout has one at most
  have hlast : file.start.toList.getLast? = file.start := by cases file.start <;> rfl
  have hskip : (fun (file : GrammarFile) (entry : Nat × List Word) =>
      if !entry.2.isEmpty then file.readLine entry else pure file) = readLine := by
    funext file entry
    obtain ⟨line, _ | ⟨w, ws⟩⟩ := entry <;> rfl
  have hfold := foldlM_rows {} 1 hrows
  rw [hlayout.start, hlayout.declarations, hlayout.productions, hlast] at hfold
  have hlines := wordLines_printed hne hlayout.formed hrows
  refine ⟨hlength, ?_⟩
  simp only [parse, hlines, bind, Except.bind, List.foldlM_filter, hskip, List.foldlM_map, hfold]
  simp only [List.nil_append, Option.or_none]
  rw [if_neg]
  simp [hfile.nonempty, hnumbers]

/-! A file with comments between its statements and behind them. -/

def signsFile (line₁ line₂ line₃ : Nat) : GrammarFile :=
  { start := some "E"
    declarations := [⟨.left, 10, [.char '+', .char '-']⟩, ⟨.nonassoc, 5, [.char '%']⟩]
    productions :=
      [⟨some "neg", "E", [.terminal (.char '-'), .terminal (.char '-'), .nonterminal "E"], some 30,
          line₁⟩,
        ⟨none, "E", [.terminal (.char '%'), .terminal (.char ':'), .terminal (.char '-'),
          .terminal (.char '>'), .terminal (.kind .int)], none, line₂⟩,
        ⟨none, "E", [], none, line₃⟩] }

def signsRows : List Row :=
  [{ comment := some " signs".toList },
    { statement := some (.declaration ⟨.left, 10, [.char '+', .char '-']⟩)
      gap := [' ']
      comment := some "> both".toList },
    {},
    { statement := some (.production ⟨some "neg", "E",
        [.terminal (.char '-'), .terminal (.char '-'), .nonterminal "E"], some 30, 0⟩) },
    { statement := some (.start "E") },
    { statement := some (.production ⟨none, "E", [.terminal (.char '%'), .terminal (.char ':'),
        .terminal (.char '-'), .terminal (.char '>'), .terminal (.kind .int)], none, 0⟩)
      gap := ['\t', '\r'] },
    { statement := some (.declaration ⟨.nonassoc, 5, [.char '%']⟩) },
    { statement := some (.production ⟨none, "E", [], none, 0⟩) },
    { gap := [' '] }]

def signsText : String :=
  "-- signs\n%left 10 + - --> both\n\nneg: E -> - - E %prec 30\n%start E\n" ++
    "E -> % : - > int\t\r\n%nonassoc 5 %\nE ->\n "

theorem signs_parse_printed : (signsFile 0 0 0).Printable ∧ Layout (signsFile 0 0 0) signsRows ∧
    printed signsRows = signsText ∧ parse signsText = .ok (signsFile 4 6 8) := by
  have hfile : (signsFile 0 0 0).Printable := by decide +kernel
  have hlayout : Layout (signsFile 0 0 0) signsRows := by decide +kernel
  have htext : printed signsRows = signsText := by decide +kernel
  have hlines : productionLines 1 signsRows = [4, 6, 8] := by decide +kernel
  have hparse := (parse_printed hfile hlayout).2
  rw [htext, hlines] at hparse
  exact ⟨hfile, hlayout, htext, hparse⟩

end CanonicalLR.GrammarFile
