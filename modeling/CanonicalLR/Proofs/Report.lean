import CanonicalLR.Proofs.Text
import CanonicalLR.Report
import CanonicalLR.Text.Quoted
import Mathlib.Data.List.Basic

/-! What a report holds. Each line tells by its tag what it is about, and no name breaks a line, so
that everything in the grammar is found again among the lines. -/

namespace CanonicalLR.Report

open CanonicalLR.Text

variable {g : Grammar} {tag : String}

/-- The line begins with the tag. -/
def begins (tag line : String) : Bool := tag.toList.isPrefixOf line.toList

/-- The lines of a text that begin with a tag. -/
def tagged (tag text : String) : List String :=
  ((pieces '\n' text.toList).map String.ofList).filter (begins tag)

/-- Lines for the item sets, one after the other. -/
def forRows (g : Grammar) (lines : Nat → Row → List String) : List String :=
  (g.rows.mapIdx lines).flatten

/-- The words of an item: its rule with a dot where it has come to. -/
def itemWords (a : Analysis) (it : Item) : List String :=
  let rhs := (a.rhs it.rule).map a.symbols.name
  a.lhsName it.rule :: "->" :: rhs.take it.dot ++ "." :: rhs.drop it.dot

/-- The report has all that there is in the grammar: the rules with their levels, what a nonterminal
can start with, the item sets with their items and actions, and the conflicts. -/
structure Full (g : Grammar) (text : String) : Prop where
  ruleCount : tagged "PS," text = [s!"PS,{g.rules.length}"]
  rules : tagged "P," text = g.rules.mapIdx fun i rule =>
    s!"P,{i},{rule.id},{rule.text g.symbols}" ++
      (g.rulePrecedence? rule).elim "" fun level => s!" [prec {level}]"
  first : tagged "FIRST," text =
    (g.symbols.toList.filter fun (_, sym) => !sym.isTerminal).map fun (s, _) =>
      let names := (g.analysis.first s).toList.map fun t => g.symbols.name t ++ ", "
      let all := if g.analysis.isNullable s then "`empty', " :: names else names
      s!"FIRST,{g.symbols.name s},\x7b" ++ String.join all ++ "\x7d"
  setCount : tagged "CS," text = [s!"CS,{g.rows.length}"]
  flags : tagged "-- " text = forRows g fun i row =>
    if row.conflicted then [s!"-- state {i} has conflicts"] else []
  items : tagged "C," text = forRows g fun i row =>
    row.set.items.map fun it => s!"C,{i}," ++ " ".intercalate (itemWords g.analysis it) ++
      ", \x7b" ++ ", ".intercalate (it.follow.toList.map g.symbols.name) ++ "\x7d"
  actions : tagged "A," text = forRows g fun i row =>
    let line (verb : String) (entry : SymbolId × Nat) :=
      s!"A,{i},{g.symbols.name entry.1},{verb} {entry.2}"
    row.actions.shifts.entries.map (line "shift") ++ row.actions.reduces.entries.map (line "reduce")
  conflicts : tagged "CONFLICT," text = g.conflicts.map fun c => "CONFLICT," ++ c.message

/-! The lines by their tags. -/

def tags : List String := ["PS,", "P,", "FIRST,", "CS,", "-- ", "C,", "A,", "CONFLICT,"]

theorem eq_of_begins : ∀ tag ∈ tags, ∀ other ∈ tags, tag.toList <+: other.toList → tag = other := by
  decide

/-- Lines with the same tag; blank lines have none. -/
structure Section where
  tag : String
  lines : List String

/-- A line has the tag of its section and no other one, and nothing breaks it. -/
structure Section.Plain (part : Section) : Prop where
  marked : ∀ line ∈ part.lines, ∀ tag ∈ tags, begins tag line = (part.tag == tag)
  unbroken : ∀ line ∈ part.lines, '\n' ∉ line.toList

theorem Section.plain_of_begins {lines : List String} (htag : tag ∈ tags)
    (h : ∀ line ∈ lines, tag.toList <+: line.toList ∧ '\n' ∉ line.toList) :
    (Section.mk tag lines).Plain := by
  refine ⟨fun line hline other hother => ?_, fun line hline => (h line hline).2⟩
  rw [begins, Bool.eq_iff_iff, List.isPrefixOf_iff_prefix, beq_iff_eq]
  refine ⟨fun hbegins => ?_, fun he => he ▸ (h line hline).1⟩
  rcases List.prefix_or_prefix_of_prefix hbegins (h line hline).1 with h | h
  · exact (eq_of_begins other hother tag htag h).symm
  · exact eq_of_begins tag htag other hother h

def blank : Section := ⟨"", [""]⟩

theorem blank_plain : blank.Plain where
  marked := by decide
  unbroken := by decide

/-- The lines of all sections with a tag. -/
def gather (tag : String) (parts : List Section) : List String :=
  parts.flatMap fun part => if part.tag = tag then part.lines else []

theorem gather_nil (tag : String) : gather tag [] = [] := rfl

theorem gather_cons (tag : String) (part : Section) (parts : List Section) :
    gather tag (part :: parts) = (if part.tag = tag then part.lines else []) ++ gather tag parts :=
  rfl

theorem gather_append (tag : String) (front back : List Section) :
    gather tag (front ++ back) = gather tag front ++ gather tag back :=
  List.flatMap_append

theorem tagged_unlines {parts : List Section} (hplain : ∀ part ∈ parts, part.Plain)
    (htag : tag ∈ tags) :
    tagged tag (unlines (parts.flatMap (·.lines))) = gather tag parts := by
  have hlines : ∀ line ∈ parts.flatMap (·.lines), '\n' ∉ line.toList := by
    intro line hline
    obtain ⟨part, hpart, hline⟩ := List.mem_flatMap.mp hline
    exact (hplain part hpart).unbroken line hline
  have hback : ((parts.flatMap (·.lines)).map String.toList).map String.ofList =
      parts.flatMap (·.lines) := by
    rw [List.map_map]
    exact (List.map_congr_left fun _ _ => String.ofList_toList).trans (List.map_id _)
  rw [tagged, pieces_unlines hlines, hback, List.filter_flatMap, gather]
  refine List.flatMap_congr fun part hpart => ?_
  split_ifs with he
  · refine List.filter_eq_self.mpr fun line hline => ?_
    rw [(hplain part hpart).marked line hline tag htag, beq_iff_eq]
    exact he
  · refine List.filter_eq_nil_iff.mpr fun line hline => ?_
    rw [(hplain part hpart).marked line hline tag htag, beq_iff_eq]
    exact he

def rowSections (a : Analysis) (i : Nat) (row : Row) : List Section :=
  [⟨"-- ", if row.conflicted then [s!"-- state {i} has conflicts"] else []⟩,
    ⟨"C,", row.set.items.map fun it => s!"C,{i},{it.text a}"⟩,
    ⟨"A,", row.actions.shifts.entries.map (actionLine a.symbols i "shift") ++
      row.actions.reduces.entries.map (actionLine a.symbols i "reduce")⟩,
    blank]

def sections (g : Grammar) : List Section :=
  [⟨"PS,", [s!"PS,{g.rules.length}"]⟩, blank, ⟨"P,", g.rules.mapIdx (ruleLine g)⟩, blank,
    ⟨"FIRST,", (g.symbols.toList.filter fun (_, sym) => !sym.isTerminal).map fun entry =>
      firstLine g.analysis entry.1⟩, blank,
    ⟨"CS,", [s!"CS,{g.rows.length}"]⟩, blank] ++
    (g.rows.mapIdx (rowSections g.analysis)).flatten ++
    [⟨"CONFLICT,", g.conflicts.map fun c => "CONFLICT," ++ c.message⟩]

theorem flatMap_mapIdx {α β γ : Type} (xs : List α) (f : Nat → α → List β) (h : β → List γ) :
    (xs.mapIdx f).flatten.flatMap h = (xs.mapIdx fun i x => (f i x).flatMap h).flatten := by
  induction xs generalizing f with
  | nil => rfl
  | cons x xs ih => simp only [List.mapIdx_cons, List.flatten_cons, List.flatMap_append, ih]

theorem unlines_append (front back : List String) :
    unlines (front ++ back) = unlines front ++ unlines back := by
  rw [← String.toList_inj]
  simp [unlines, String.toList_join]

theorem flatMap_rowSections (a : Analysis) (i : Nat) (row : Row) :
    (rowSections a i row).flatMap (·.lines) = rowLines a i row := by
  simp [rowSections, rowLines, blank]

theorem full_eq (g : Grammar) : full g = unlines ((sections g).flatMap (·.lines)) := by
  have hblank : "\n" = unlines [""] := by decide
  rw [full, rules, first, sets, conflicts, hblank]
  simp only [← unlines_append, sections, List.flatMap_append, flatMap_mapIdx, flatMap_rowSections]
  simp [blank]

/-! Items in words. -/

theorem intercalate_cons (separator text : String) (texts : List String) :
    separator.intercalate (text :: texts) =
      text ++ String.join (texts.map fun next => separator ++ next) := by
  rw [← String.toList_inj, String.toList_intercalate, String.toList_append, String.toList_join]
  induction texts generalizing text with
  | nil => simp
  | cons next texts ih =>
    rw [List.map_cons, List.map_cons, List.intercalate_cons_cons, ← List.map_cons, ih]
    simp

theorem dotted_eq (r : Registry) (dot : Nat) (ids : List SymbolId) : Item.dotted r dot ids =
    String.join (((ids.map r.name).take dot ++ "." :: (ids.map r.name).drop dot).map
      fun word => " " ++ word) := by
  rw [← String.toList_inj, String.toList_join]
  induction ids generalizing dot with
  | nil => cases dot <;> simp [Item.dotted]
  | cons s ids ih =>
    cases dot with
    | zero => simp [Item.dotted, String.toList_join, Function.comp_def]
    | succ dot => simp [Item.dotted, ih dot]

theorem itemText_eq (a : Analysis) (it : Item) : it.text a =
    " ".intercalate (itemWords a it) ++ ", \x7b" ++
      ", ".intercalate (it.follow.toList.map a.symbols.name) ++ "\x7d" := by
  rw [itemWords, List.cons_append, intercalate_cons, Item.text, dotted_eq, Registry.namesText]
  simp [← String.toList_inj, String.toList_join]

/-! No line is broken. -/

theorem feed_notMem_decimal (n : Nat) : '\n' ∉ Nat.toDigits 10 n :=
  fun hmem => absurd (isDigit_of_mem hmem) (by decide)

theorem feed_notMem_hexadecimal (n : Nat) : '\n' ∉ Nat.toDigits 16 n := by
  induction n using Nat.strongRecOn with
  | ind n ih =>
    rw [Nat.toDigits_eq_if (by decide)]
    split_ifs with hn
    · simp
    · simpa using ih (n / 16) (by omega)

theorem feed_notMem_int (n : Int) : '\n' ∉ n.repr.toList := by
  cases n with
  | ofNat n => simpa [Int.repr] using feed_notMem_decimal n
  | negSucc n => simpa [Int.repr] using feed_notMem_decimal (n + 1)

theorem feed_notMem_intercalate {separator : String} {texts : List String}
    (hsep : '\n' ∉ separator.toList) (h : ∀ text ∈ texts, '\n' ∉ text.toList) :
    '\n' ∉ (String.intercalate separator texts).toList := by
  rw [String.toList_intercalate]
  induction texts with
  | nil => simp
  | cons text texts ih =>
    rw [List.forall_mem_cons] at h
    cases texts with
    | nil => simpa using h.1
    | cons next texts =>
      simp only [List.map_cons, List.intercalate_cons_cons, List.mem_append, not_or]
      exact ⟨⟨h.1, hsep⟩, ih h.2⟩

theorem feed_notMem_escape (c : Char) : '\n' ∉ escape c := by
  unfold escape
  split
  case h_7 hfeed _ _ _ =>
    split_ifs
    · simpa using feed_notMem_hexadecimal c.toNat
    · exact fun hmem => hfeed (List.mem_singleton.mp hmem).symm
  all_goals decide

/-- A quoted text is on one line whatever it quotes. -/
theorem feed_notMem_quote (text : String) : '\n' ∉ (quote text).toList := by
  simp [quote, quoteChars, feed_notMem_escape]

/-! What the names make up. -/

section Names

variable {r : Registry} {a : Analysis}

theorem feed_notMem_namesText (hnames : ∀ s, '\n' ∉ (r.name s).toList) {separator : String}
    (hsep : '\n' ∉ separator.toList) (ids : List SymbolId) :
    '\n' ∉ (r.namesText separator ids).toList := by
  refine feed_notMem_intercalate hsep fun text hmem => ?_
  obtain ⟨s, -, rfl⟩ := List.mem_map.mp hmem
  exact hnames s

theorem feed_notMem_ruleText (hnames : ∀ s, '\n' ∉ (r.name s).toList) (rule : Rule) :
    '\n' ∉ (rule.text r).toList := by
  have hrhs : '\n' ∉ (r.namesText " " rule.rhs).toList :=
    feed_notMem_namesText hnames (by decide) rule.rhs
  simp only [Rule.text]
  split_ifs <;> simp [hnames, hrhs]

theorem feed_notMem_itemText (hnames : ∀ s, '\n' ∉ (a.symbols.name s).toList) (it : Item) :
    '\n' ∉ (it.text a).toList := by
  have hlhs : '\n' ∉ (a.lhsName it.rule).toList := by
    rw [Analysis.lhsName]
    cases a.rules[it.rule]? with
    | none => simp
    | some rule => exact hnames rule.lhs
  have hfollow := feed_notMem_namesText hnames (by decide : '\n' ∉ ", ".toList) it.follow.toList
  have hrhs : ∀ text ∈ (a.rhs it.rule).map a.symbols.name, '\n' ∉ text.toList := by
    intro text hmem
    obtain ⟨s, -, rfl⟩ := List.mem_map.mp hmem
    exact hnames s
  have hwords : '\n' ∉ (" ".intercalate (itemWords a it)).toList := by
    refine feed_notMem_intercalate (by decide) ?_
    simp only [itemWords, List.forall_mem_cons, List.forall_mem_append, List.cons_append]
    exact ⟨hlhs, by decide, fun text hmem => hrhs text (List.mem_of_mem_take hmem), by decide,
      fun text hmem => hrhs text (List.mem_of_mem_drop hmem)⟩
  rw [itemText_eq, ← Registry.namesText]
  simpa [hfollow] using hwords

end Names

/-- A conflict quotes its symbol and shows its rule as it is. -/
theorem feed_notMem_message {c : Conflict} (h : ∀ state symbol i ruleText,
    c = .shiftReduce state symbol i ruleText → '\n' ∉ ruleText.toList) :
    '\n' ∉ c.message.toList := by
  unfold Conflict.message
  cases c with
  | shiftReduce state symbol i ruleText =>
    have htext := h state symbol i ruleText rfl
    simp [toString, feed_notMem_decimal, feed_notMem_quote, htext]
  | reduceReduce state symbol rules =>
    have hrules : '\n' ∉ (String.intercalate ", " (rules.map toString)).toList := by
      refine feed_notMem_intercalate (by decide) fun text hmem => ?_
      obtain ⟨i, -, rfl⟩ := List.mem_map.mp hmem
      simp [feed_notMem_decimal]
    simpa [toString, feed_notMem_decimal, feed_notMem_quote] using hrules

/-! The sections. -/

theorem count_plain (htag : tag ∈ tags) (n : Nat) :
    (Section.mk tag [toString tag ++ toString n]).Plain := by
  refine Section.plain_of_begins htag fun line hline => ?_
  obtain rfl := List.mem_singleton.mp hline
  have hfeed : ∀ tag ∈ tags, '\n' ∉ tag.toList := by decide
  simp [toString, hfeed tag htag, feed_notMem_decimal]

theorem rules_plain (hnames : ∀ s, '\n' ∉ (g.symbols.name s).toList) :
    (Section.mk "P," (g.rules.mapIdx (ruleLine g))).Plain := by
  refine Section.plain_of_begins (by decide) fun line hline => ?_
  obtain ⟨i, hi, rfl⟩ := List.mem_mapIdx.mp hline
  have htext := feed_notMem_ruleText hnames g.rules[i]
  simp only [ruleLine]
  cases g.rulePrecedence? g.rules[i] with
  | none => simp [toString, feed_notMem_decimal, htext]
  | some level => simp [toString, feed_notMem_decimal, feed_notMem_int, htext]

theorem conflicts_plain {conflicts : List Conflict}
    (h : ∀ c ∈ conflicts, '\n' ∉ c.message.toList) :
    (Section.mk "CONFLICT," (conflicts.map fun c => "CONFLICT," ++ c.message)).Plain := by
  refine Section.plain_of_begins (by decide) fun line hline => ?_
  obtain ⟨c, hc, rfl⟩ := List.mem_map.mp hline
  simp [h c hc]

section Plain

variable {a : Analysis} (hnames : ∀ s, '\n' ∉ (a.symbols.name s).toList)
include hnames

theorem first_plain (symbols : List (SymbolId × Symbol)) :
    (Section.mk "FIRST," (symbols.map fun entry => firstLine a entry.1)).Plain := by
  refine Section.plain_of_begins (by decide) fun line hline => ?_
  obtain ⟨entry, -, rfl⟩ := List.mem_map.mp hline
  simp only [firstLine]
  split_ifs <;> simp [String.toList_join, hnames]

theorem items_plain (i : Nat) (items : List Item) :
    (Section.mk "C," (items.map fun it => s!"C,{i},{it.text a}")).Plain := by
  refine Section.plain_of_begins (by decide) fun line hline => ?_
  obtain ⟨it, -, rfl⟩ := List.mem_map.mp hline
  have htext := feed_notMem_itemText hnames it
  simp [toString, feed_notMem_decimal, htext]

theorem actions_plain (i : Nat) (actions : State) : (Section.mk "A,"
    (actions.shifts.entries.map (actionLine a.symbols i "shift") ++
      actions.reduces.entries.map (actionLine a.symbols i "reduce"))).Plain := by
  refine Section.plain_of_begins (by decide) fun line hline => ?_
  rw [List.mem_append, List.mem_map, List.mem_map] at hline
  obtain ⟨entry, -, rfl⟩ | ⟨entry, -, rfl⟩ := hline <;>
    simp [actionLine, toString, feed_notMem_decimal, hnames]

theorem rowSections_plain (i : Nat) (row : Row) : ∀ part ∈ rowSections a i row, part.Plain := by
  simp only [rowSections, List.forall_mem_cons]
  refine ⟨?_, items_plain hnames i _, actions_plain hnames i _, blank_plain, fun _ h => nomatch h⟩
  refine Section.plain_of_begins (by decide) fun line hline => ?_
  split_ifs at hline
  · obtain rfl := List.mem_singleton.mp hline
    simp [toString, feed_notMem_decimal]
  · cases hline

end Plain

theorem sections_plain (hnames : ∀ s, '\n' ∉ (g.symbols.name s).toList)
    (hconflicts : ∀ c ∈ g.conflicts, '\n' ∉ c.message.toList) :
    ∀ part ∈ sections g, part.Plain := by
  have hrows : ∀ part ∈ (g.rows.mapIdx (rowSections g.analysis)).flatten, part.Plain := by
    intro part hpart
    obtain ⟨parts, hparts, hpart⟩ := List.mem_flatten.mp hpart
    obtain ⟨i, hi, rfl⟩ := List.mem_mapIdx.mp hparts
    exact rowSections_plain (a := g.analysis) hnames i _ part hpart
  have hnil : ∀ part ∈ ([] : List Section), part.Plain := fun _ h => nomatch h
  simp only [sections, List.forall_mem_append, List.forall_mem_cons]
  exact ⟨⟨⟨count_plain (by decide) _, blank_plain, rules_plain hnames, blank_plain,
    first_plain (a := g.analysis) hnames _, blank_plain, count_plain (by decide) _, blank_plain,
    hnil⟩, hrows⟩, conflicts_plain hconflicts, hnil⟩

theorem forRows_nil (g : Grammar) : forRows g (fun _ _ => []) = [] := by
  simp [forRows]

theorem gather_rows (tag : String) (g : Grammar) :
    gather tag (g.rows.mapIdx (rowSections g.analysis)).flatten =
      forRows g fun i row => gather tag (rowSections g.analysis i row) :=
  flatMap_mapIdx _ _ _

theorem ruleLine_eq (g : Grammar) (i : Nat) (rule : Rule) : ruleLine g i rule =
    s!"P,{i},{rule.id},{rule.text g.symbols}" ++
      (g.rulePrecedence? rule).elim "" fun level => s!" [prec {level}]" := by
  rw [ruleLine]
  cases g.rulePrecedence? rule <;> rfl

theorem firstLine_eq (a : Analysis) (s : SymbolId) : firstLine a s =
    let names := (a.first s).toList.map fun t => a.symbols.name t ++ ", "
    let all := if a.isNullable s then "`empty', " :: names else names
    s!"FIRST,{a.symbols.name s},\x7b" ++ String.join all ++ "\x7d" := by
  rw [firstLine]
  split_ifs <;> simp [toString, ← String.toList_inj, String.toList_join]

theorem itemLine_eq (a : Analysis) (i : Nat) (it : Item) : s!"C,{i},{it.text a}" =
    s!"C,{i}," ++ " ".intercalate (itemWords a it) ++ ", \x7b" ++
      ", ".intercalate (it.follow.toList.map a.symbols.name) ++ "\x7d" := by
  rw [itemText_eq]
  simp [toString, String.append_assoc]

/-- A report is full when no name and no conflict breaks its line. -/
theorem full_of_names (hnames : ∀ s, '\n' ∉ (g.symbols.name s).toList)
    (hconflicts : ∀ c ∈ g.conflicts, '\n' ∉ c.message.toList) : Full g (full g) := by
  have htagged : ∀ tag ∈ tags, tagged tag (full g) = gather tag (sections g) := by
    intro tag htag
    rw [full_eq]
    exact tagged_unlines (sections_plain hnames hconflicts) htag
  constructor
  all_goals
    rw [htagged _ (by decide)]
    simp only [sections, gather_append, gather_rows, gather_cons, gather_nil, rowSections, blank,
      String.reduceEq, ↓reduceIte, List.append_nil, List.nil_append, forRows_nil]
  case rules => exact congrArg (List.mapIdx · g.rules) (funext₂ (ruleLine_eq g))
  case first => exact List.map_congr_left fun entry _ => firstLine_eq g.analysis entry.1
  case items =>
    refine congrArg (forRows g) (funext₂ fun i row => ?_)
    rw [funext (itemLine_eq g.analysis i)]
    rfl
  case actions => rfl

end CanonicalLR.Report
