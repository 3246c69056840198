import CanonicalLR.Proofs.Table.Reached
import CanonicalLR.Proofs.Text

/-! What is written to a table is read back. Each line is a record of plain fields; reading the
lines of the states one after the other makes the states again, entry by entry. -/

namespace CanonicalLR.Table

open CanonicalLR.Text

variable {g h : Grammar} {d d' : Draft} {s : SymbolId} {line : Nat}

/-! Records. -/

/-- Neither a comma nor white space. -/
def Plain (field : List Char) : Prop := ∀ c ∈ field, c ≠ ',' ∧ isBlank c = false

instance (field : List Char) : Decidable (Plain field) :=
  List.decidableBAll (fun c => c ≠ ',' ∧ isBlank c = false) field

theorem plain_toDigits (n : Nat) : Plain (Nat.toDigits 10 n) := by
  intro c hc
  have hdigit := isDigit_of_mem hc
  refine ⟨?_, isBlank_of_isDigit hdigit⟩
  rintro rfl
  cases hdigit

def record (tag : String) (fs : Fields) : List Char := tag.toList ++ fs.flatMap (',' :: ·)

theorem fields_record {tag : String} {fs : Fields} (htag : Plain tag.toList)
    (hfs : ∀ field ∈ fs, Plain field) : fields ',' (record tag fs) = tag.toList :: fs := by
  rw [record]
  generalize tag.toList = front at htag
  induction fs generalizing front with
  | nil => simpa using fields_eq_singleton fun hmem => (htag _ hmem).1 rfl
  | cons field fs ih =>
    have hfront : ',' ∉ front := fun hmem => (htag _ hmem).1 rfl
    have hrest := ih (fun f hf => hfs f (List.mem_cons_of_mem _ hf)) field (hfs field List.mem_cons_self)
    rw [List.flatMap_cons, List.cons_append, fields_append hfront, hrest]

theorem isBlank_of_mem_record {tag : String} {fs : Fields} (htag : Plain tag.toList)
    (hfs : ∀ field ∈ fs, Plain field) {c : Char} (hc : c ∈ record tag fs) : isBlank c = false := by
  rcases List.mem_append.mp hc with hc | hc
  · exact (htag c hc).2
  · obtain ⟨field, hfield, hc⟩ := List.mem_flatMap.mp hc
    rcases List.mem_cons.mp hc with rfl | hc
    · rfl
    · exact (hfs field hfield c hc).2

theorem isSkipped_record {tag : String} {fs : Fields} (htag : isSkipped tag.toList = false) :
    isSkipped (record tag fs) = false := by
  rw [record]
  generalize tag.toList = front at htag
  cases front with
  | nil => cases htag
  | cons c front =>
    cases front with
    | nil => cases fs <;> simp [isSkipped, List.isPrefixOf]
    | cons c' front => simpa [isSkipped, List.isPrefixOf] using htag

theorem readLine_record {tag : String} {fs : Fields} (hplain : Plain tag.toList)
    (htag : isSkipped tag.toList = false) (hfs : ∀ field ∈ fs, Plain field)
    (hread : readRecord g line d tag fs = .ok (d', [])) :
    readLine g line d (record tag fs) = .ok d' := by
  have htrim : trim (record tag fs) = record tag fs :=
    trim_eq_self fun _ hmem => isBlank_of_mem_record hplain hfs hmem
  simp only [readLine, htrim, isSkipped_record htag, fields_record hplain hfs,
    String.ofList_toList, hread]
  rfl

/-! Fields of symbols. -/

theorem plain_of_not_isUnwritable {name : String} (hname : isUnwritable name = false) :
    Plain name.toList ∧ readNat maxUInt32 name.toList = none := by
  simp only [isUnwritable, Bool.or_eq_false_iff, List.any_eq_false, Bool.or_eq_true, not_or] at hname
  obtain ⟨⟨-, hnumber⟩, hall⟩ := hname
  refine ⟨fun c hc => ?_, by simpa using hnumber⟩
  simpa using hall c hc

theorem plain_of_symbolField {r : Registry} {field : String}
    (hfield : symbolField r s = .ok field) : Plain field.toList := by
  rw [symbolField] at hfield
  split at hfield
  · rename_i type _
    cases hfield
    simpa using plain_toDigits type.toNat
  · rw [nameField] at hfield
    split at hfield
    · cases hfield
    · rename_i hname
      cases hfield
      exact (plain_of_not_isUnwritable (by simpa using hname)).1

theorem findSymbol_of_symbolField {r : Registry} (hr : r.Distinct) (hs : r.Registered s)
    {field : String} (hfield : symbolField r s = .ok field) :
    findSymbol r field.toList = some s := by
  obtain ⟨⟨name, kind⟩, hsym⟩ : ∃ sym, r.get? s = some sym := ⟨_, List.getElem?_eq_getElem hs⟩
  cases kind with
  | terminal type =>
    have hnumber : readNat maxUInt32 (Nat.toDigits 10 type.toNat) = some type.toNat :=
      readNat_toDigits (Nat.le_of_lt_succ type.toNat_lt)
    simp only [symbolField, hsym, Symbol.type?, Option.bind_some, Except.ok.injEq] at hfield
    rw [← hfield, Nat.toString_eq_ofList_toDigits, String.toList_ofList, findSymbol, hnumber]
    simpa using hr.byType?_eq hsym
  | nonterminal =>
    simp only [symbolField, nameField, hsym, Symbol.type?, Option.bind_some, Registry.name,
      Option.map_some, Option.getD_some] at hfield
    split at hfield
    · cases hfield
    · rename_i hname
      obtain ⟨-, hnumber⟩ := plain_of_not_isUnwritable (by simpa using hname)
      cases hfield
      have hnonterminal : r.isTerminal s = false := by
        simp [Registry.isTerminal, hsym, Symbol.isTerminal]
      rw [findSymbol, hnumber, String.ofList_toList, hr.byName?_eq hsym]
      simp [hnonterminal]

theorem symbolField_error {r : Registry} {e : TableError} :
    symbolField r s = .error e ↔ e = .unwritableName (r.name s) ∧ r.isTerminal s = false ∧
      isUnwritable (r.name s) = true := by
  have hterminal : r.isTerminal s = ((r.get? s).bind (·.type?)).isSome := by
    rw [Registry.isTerminal]
    cases r.get? s with
    | none => rfl
    | some sym => cases hk : sym.kind <;> simp [Symbol.isTerminal, Symbol.type?, hk]
  rw [symbolField, hterminal]
  cases (r.get? s).bind (·.type?) with
  | some type => simp
  | none => cases hname : isUnwritable (r.name s) <;> simp [nameField, hname, eq_comm]

/-! Lines. -/

/-- Reading these lines, if they can be written at all, leads from one draft to the other. -/
def Recovers (g : Grammar) (d : Draft) (lines : List (Except TableError String)) (d' : Draft) :
    Prop :=
  ∀ texts : List String, lines = texts.map .ok → ∀ line,
    readLines g line d (texts.map fun text => some text.toList) = .ok (line + texts.length, d')

namespace Recovers

variable {lines lines' : List (Except TableError String)} {d'' : Draft}

theorem nil : Recovers g d [] d := by
  intro texts htexts line
  obtain rfl := List.map_eq_nil_iff.mp htexts.symm
  rfl

theorem append (hd : Recovers g d lines d') (hd' : Recovers g d' lines' d'') :
    Recovers g d (lines ++ lines') d'' := by
  intro texts htexts line
  obtain ⟨front, back, rfl, rfl, rfl⟩ := List.map_eq_append_iff.mp htexts.symm
  have happend : ∀ (before : List (Option (List Char))) (line : Nat) {d : Draft},
      readLines g line d (before ++ back.map fun text => some text.toList) =
        (readLines g line d before).bind fun r =>
          readLines g r.1 r.2 (back.map fun text => some text.toList) := by
    intro before
    induction before with
    | nil => exact fun _ _ => rfl
    | cons text before ih =>
      intro line d
      cases text with
      | none => rfl
      | some text =>
        simp only [List.cons_append, readLines]
        cases readLine g (line + 1) d text with
        | error e => rfl
        | ok d₁ => exact ih (line + 1)
  rw [List.map_append, happend, hd front rfl line]
  have hback := hd' back rfl (line + front.length)
  simpa [Except.bind, Nat.add_assoc] using hback

theorem single {x : Except TableError String}
    (hx : ∀ text, x = .ok text → ∀ line, readLine g line d text.toList = .ok d') :
    Recovers g d [x] d' := by
  intro texts htexts line
  obtain ⟨text, rest, rfl, hx', hrest⟩ := List.map_eq_cons_iff.mp htexts.symm
  obtain rfl := List.map_eq_nil_iff.mp hrest
  simp [readLines, hx text hx'.symm (line + 1)]
  rfl

end Recovers

/-! The lines of a table. -/

theorem takeNumber_toDigits {n : Nat} (hn : n ≤ maxUInt64) (what : String) (rest : Fields) :
    takeNumber line what (Nat.toDigits 10 n :: rest) = .ok (n, rest) := by
  have htrim : trim (Nat.toDigits 10 n) = Nat.toDigits 10 n :=
    trim_eq_self fun c hc => (plain_toDigits n c hc).2
  simp [takeNumber, htrim, readNat_toDigits hn]

theorem toList_numberLine (tag : String) (n : Nat) :
    (tag ++ "," ++ toString n).toList = record tag [Nat.toDigits 10 n] := by
  simp [record]

theorem toList_entryText (tag field : String) (n : Nat) :
    (s!"{tag},{field},{n}").toList = record tag [field.toList, Nat.toDigits 10 n] :=
  show (tag ++ "," ++ field ++ "," ++ toString n).toList = _ by simp [record]

theorem recovers_header : Recovers g d [.ok header] d := by
  refine .single fun text htext line => ?_
  cases htext
  have hskipped : isSkipped (trim header.toList) = true := by decide
  simp [readLine, hskipped]

theorem recovers_rules (hrules : g.rules.length ≤ maxUInt64) :
    Recovers g d [.ok s!"RULES,{g.rules.length}"] { d with rules := some g.rules.length } := by
  refine .single fun text htext line => ?_
  obtain rfl := Except.ok.inj htext
  refine (congrArg _ (toList_numberLine "RULES" _)).trans ?_
  refine readLine_record (by decide) (by decide) (by simpa using plain_toDigits _) ?_
  simp only [readRecord, readRules, takeNumber_toDigits hrules, bind, Except.bind, if_true]

theorem recovers_count {n : Nat} (hn : n ≤ maxUInt64) :
    Recovers g d [.ok s!"STATES,{n}"] { d with declared := some n } := by
  refine .single fun text htext line => ?_
  obtain rfl := Except.ok.inj htext
  refine (congrArg _ (toList_numberLine "STATES" _)).trans ?_
  refine readLine_record (by decide) (by decide) (by simpa using plain_toDigits _) ?_
  simp only [readRecord, readStates, takeNumber_toDigits hn, bind, Except.bind]

theorem recovers_index (hlen : d.states.length ≤ maxUInt64) :
    Recovers g d [.ok s!"S,{d.states.length}"]
      { d with states := d.states ++ [({} : State)] } := by
  refine .single fun text htext line => ?_
  obtain rfl := Except.ok.inj htext
  refine (congrArg _ (toList_numberLine "S" _)).trans ?_
  refine readLine_record (by decide) (by decide) (by simpa using plain_toDigits _) ?_
  simp only [readRecord, readState, takeNumber_toDigits hlen, bind, Except.bind, if_true]

/-! Entries. -/

theorem entryLine_ok (hg : g.symbols.Distinct) {e : SymbolId × Nat} (hs : g.symbols.Registered e.1)
    (he : e.2 ≤ maxUInt64) {tag text : String} (htext : entryLine g.symbols tag e = .ok text) :
    ∃ fs, text.toList = record tag fs ∧ (∀ field ∈ fs, Plain field) ∧
      ∀ (line : Nat) (d : Draft), takeEntry g line tag d fs =
        if d.states.isEmpty then .error (.malformed line (.beforeAnyState tag))
        else .ok (e.1, e.2, []) := by
  obtain ⟨field, hfield, rfl⟩ := map_ok htext
  have hplain := plain_of_symbolField hfield
  have hfound := findSymbol_of_symbolField hg hs hfield
  have htrim : trim field.toList = field.toList := trim_eq_self fun c hc => (hplain c hc).2
  refine ⟨[field.toList, Nat.toDigits 10 e.2], ?_, ?_, fun line d => ?_⟩
  · exact toList_entryText tag field e.2
  · simpa using ⟨hplain, plain_toDigits e.2⟩
  · simp only [takeEntry, takeSymbol, htrim, hfound, takeNumber_toDigits he, bind, Except.bind]

theorem onLast_append (d : Draft) (state : State) (change : State → State) :
    Draft.onLast { d with states := d.states ++ [state] } change =
      { d with states := d.states ++ [change state] } := by
  have hmodify : ∀ front : List State, (front ++ [state]).modify front.length change =
      front ++ [change state] := by
    intro front
    induction front with
    | nil => rfl
    | cons other front ih => simpa using ih
  simpa [Draft.onLast] using hmodify d.states

theorem recovers_shift (hg : g.symbols.Distinct) (state : State) {e : SymbolId × Nat}
    (hs : g.symbols.Registered e.1) (he : e.2 ≤ maxUInt64) :
    Recovers g { d with states := d.states ++ [state] } [entryLine g.symbols "SH" e]
      { d with states := d.states ++ [{ state with shifts := state.shifts.insert e.1 e.2 }] } := by
  refine .single fun text htext line => ?_
  obtain ⟨fs, htext, hfs, hentry⟩ := entryLine_ok hg hs he htext
  rw [htext]
  refine readLine_record (by decide) (by decide) hfs ?_
  simp [readRecord, readShift, hentry, onLast_append, bind, Except.bind]

theorem recovers_reduce (hg : g.symbols.Distinct) (state : State) {e : SymbolId × Nat}
    (hs : g.symbols.Registered e.1) (he : e.2 < g.rules.length)
    (hrules : g.rules.length ≤ maxUInt64) :
    Recovers g { d with states := d.states ++ [state] } [entryLine g.symbols "RD" e]
      { d with states := d.states ++ [{ state with reduces := state.reduces.insert e.1 e.2 }] } := by
  refine .single fun text htext line => ?_
  obtain ⟨fs, htext, hfs, hentry⟩ := entryLine_ok hg hs (he.le.trans hrules) htext
  rw [htext]
  refine readLine_record (by decide) (by decide) hfs ?_
  simp [readRecord, readReduce, hentry, he, onLast_append, bind, Except.bind]

theorem Recovers.entries {tag : String} {change : State → SymbolId × Nat → State}
    {es : List (SymbolId × Nat)} (hes : ∀ e ∈ es, ∀ state : State,
      Recovers g { d with states := d.states ++ [state] } [entryLine g.symbols tag e]
        { d with states := d.states ++ [change state e] }) (state : State) :
    Recovers g { d with states := d.states ++ [state] } (es.map (entryLine g.symbols tag))
      { d with states := d.states ++ [es.foldl change state] } := by
  induction es generalizing state with
  | nil => exact .nil
  | cons e es ih =>
    have hfirst := hes e List.mem_cons_self state
    exact hfirst.append (ih (fun f hf => hes f (List.mem_cons_of_mem _ hf)) (change state e))

/-! States. -/

theorem foldl_shifts (es : List (SymbolId × Nat)) (state : State) :
    es.foldl (fun state e => { state with shifts := state.shifts.insert e.1 e.2 }) state =
      { state with shifts := es.foldl (fun m e => m.insert e.1 e.2) state.shifts } := by
  induction es generalizing state with
  | nil => rfl
  | cons e es ih => exact ih _

theorem foldl_reduces (es : List (SymbolId × Nat)) (state : State) :
    es.foldl (fun state e => { state with reduces := state.reduces.insert e.1 e.2 }) state =
      { state with reduces := es.foldl (fun m e => m.insert e.1 e.2) state.reduces } := by
  induction es generalizing state with
  | nil => rfl
  | cons e es ih => exact ih _

theorem recovers_state (hg : g.symbols.Distinct) (hrules : g.rules.length ≤ maxUInt64) {n : Nat}
    (hn : n ≤ maxUInt64) (hlen : d.states.length ≤ maxUInt64) {state : State}
    (hstate : state.Regular g.symbols g.rules.length n) :
    Recovers g d (stateLines g.symbols d.states.length state)
      { d with states := d.states ++ [state] } := by
  have hshift : ∀ e ∈ state.shifts.entries, g.symbols.Registered e.1 ∧ e.2 < n :=
    fun e he => hstate.shift e.1 e.2 (hstate.shifts.get?_eq_some.mpr he)
  have hreduce : ∀ e ∈ state.reduces.entries, g.symbols.Registered e.1 ∧ e.2 < g.rules.length :=
    fun e he => hstate.reduce e.1 e.2 (hstate.reduces.get?_eq_some.mpr he)
  have hshifts := Recovers.entries (d := d) (fun e he state =>
    recovers_shift hg state (hshift e he).1 ((hshift e he).2.le.trans hn)) {}
  have hreduces := Recovers.entries (d := d) (fun e he state =>
    recovers_reduce hg state (hreduce e he).1 (hreduce e he).2 hrules) { shifts := state.shifts }
  rw [foldl_shifts, hstate.shifts.foldl_insert] at hshifts
  rw [foldl_reduces, hstate.reduces.foldl_insert] at hreduces
  exact ((recovers_index hlen).append hshifts).append hreduces

theorem recovers_states (hg : g.symbols.Distinct) (hrules : g.rules.length ≤ maxUInt64) {n : Nat}
    (hn : n ≤ maxUInt64) (hempty : d.states = []) {states : List State} (hlen : states.length ≤ n)
    (hstates : ∀ state ∈ states, state.Regular g.symbols g.rules.length n) :
    Recovers g d (states.mapIdx (stateLines g.symbols)).flatten { d with states } := by
  induction states using List.reverseRecOn with
  | nil =>
    obtain ⟨rules, declared, _⟩ := d
    subst hempty
    exact .nil
  | append_singleton states state ih =>
    rw [List.length_append, List.length_singleton] at hlen
    have hfront := ih (by omega) fun other hmem => hstates other (List.mem_append_left _ hmem)
    have hlast := recovers_state (d := { d with states }) hg hrules hn (by dsimp only; omega)
      (hstates state (by simp))
    have happend := hfront.append hlast
    simpa [List.mapIdx_append] using happend

/-! Writing all lines. -/

theorem eq_map_ok_of_emit {lines : List (Except TableError String)} {texts : List String}
    (hemit : emit none lines = .ok texts) : lines = texts.map .ok := by
  induction lines generalizing texts with
  | nil =>
    cases hemit
    rfl
  | cons x lines ih =>
    cases x with
    | error e => cases hemit
    | ok text =>
      obtain ⟨rest, hrest, rfl⟩ := map_ok hemit
      rw [ih hrest, List.map_cons]

theorem error_mem_of_emit {lines : List (Except TableError String)} {e : TableError}
    (hemit : emit none lines = .error e) : .error e ∈ lines := by
  induction lines with
  | nil => cases hemit
  | cons x lines ih =>
    cases x with
    | error e' =>
      cases hemit
      exact List.mem_cons_self
    | ok text =>
      rw [emit] at hemit
      cases hrest : emit none lines with
      | ok rest =>
        rw [hrest] at hemit
        cases hemit
      | error e' =>
        rw [hrest] at hemit
        cases hemit
        exact List.mem_cons_of_mem _ (ih hrest)

def entryLines (r : Registry) (state : State) : List (Except TableError String) :=
  state.shifts.entries.map (entryLine r "SH") ++ state.reduces.entries.map (entryLine r "RD")

theorem error_mem_entryLines {r : Registry} {state : State} {e : TableError} :
    .error e ∈ entryLines r state ↔
      ∃ s, (s ∈ state.shifts.keys ∨ s ∈ state.reduces.keys) ∧ symbolField r s = .error e := by
  have hline : ∀ (tag : String) (m : SymbolMap Nat),
      .error e ∈ m.entries.map (entryLine r tag) ↔ ∃ s ∈ m.keys, symbolField r s = .error e := by
    intro tag m
    have hentry : ∀ entry, entryLine r tag entry = .error e ↔ symbolField r entry.1 = .error e := by
      intro entry
      rw [entryLine]
      cases symbolField r entry.1 <;> simp [Except.map]
    simp [SymbolMap.keys, hentry]
  rw [entryLines, List.mem_append, hline, hline, ← exists_or]
  simp only [or_and_right]

theorem mem_tableLines {x : Except TableError String} :
    x ∈ tableLines g ↔ x ∈ [.ok header, .ok s!"RULES,{g.rules.length}",
        .ok s!"STATES,{g.states.length}"] ∨
      ∃ (i : Nat) (state : State), g.states[i]? = some state ∧
        (x = .ok s!"S,{i}" ∨ x ∈ entryLines g.symbols state) := by
  simp only [tableLines, stateLines, entryLines, List.mem_append, List.mem_flatten, List.mem_mapIdx]
  refine or_congr_right ⟨?_, ?_⟩
  · rintro ⟨_, ⟨i, hi, rfl⟩, hx⟩
    refine ⟨i, _, List.getElem?_eq_getElem hi, ?_⟩
    simpa [or_assoc] using hx
  · rintro ⟨i, state, hi, hx⟩
    obtain ⟨hlt, rfl⟩ := List.getElem?_eq_some_iff.mp hi
    refine ⟨_, ⟨i, hlt, rfl⟩, ?_⟩
    simpa [or_assoc] using hx

theorem error_mem_tableLines {e : TableError} :
    .error e ∈ tableLines g ↔ ∃ state ∈ g.states, ∃ s,
      (s ∈ state.shifts.keys ∨ s ∈ state.reduces.keys) ∧ symbolField g.symbols s = .error e := by
  simp only [mem_tableLines, List.mem_cons, reduceCtorEq, List.not_mem_nil, or_false, false_or,
    error_mem_entryLines]
  constructor
  · rintro ⟨i, state, hi, hs⟩
    exact ⟨state, List.mem_of_getElem? hi, hs⟩
  · rintro ⟨state, hmem, hs⟩
    obtain ⟨i, hi⟩ := List.mem_iff_getElem?.mp hmem
    exact ⟨i, state, hi, hs⟩

theorem feed_notMem_of_mem_tableLines {text : String} (hx : .ok text ∈ tableLines g) :
    '\n' ∉ text.toList := by
  have hnumber : ∀ tag : String, Plain tag.toList → ∀ n : Nat,
      '\n' ∉ (tag ++ "," ++ toString n).toList := by
    intro tag htag n hmem
    rw [toList_numberLine] at hmem
    cases isBlank_of_mem_record htag (by simpa using plain_toDigits n) hmem
  have hentries : ∀ tag : String, Plain tag.toList → ∀ m : SymbolMap Nat,
      .ok text ∈ m.entries.map (entryLine g.symbols tag) → '\n' ∉ text.toList := by
    intro tag htag m hmem hfeed
    obtain ⟨e, -, he⟩ := List.mem_map.mp hmem
    obtain ⟨field, hfield, rfl⟩ := map_ok he
    rw [toList_entryText] at hfeed
    have hfs := plain_of_symbolField hfield
    cases isBlank_of_mem_record htag (by simpa using ⟨hfs, plain_toDigits e.2⟩) hfeed
  rcases mem_tableLines.mp hx with hx | ⟨i, state, -, hx | hx⟩
  · simp only [List.mem_cons, List.not_mem_nil, or_false, Except.ok.injEq] at hx
    rcases hx with rfl | rfl | rfl
    · decide
    · exact hnumber "RULES" (by decide) _
    · exact hnumber "STATES" (by decide) _
  · obtain rfl := Except.ok.inj hx
    exact hnumber "S" (by decide) i
  · rcases List.mem_append.mp hx with hx | hx
    · exact hentries "SH" (by decide) _ hx
    · exact hentries "RD" (by decide) _ hx

/-! The round trip. -/

theorem isConfigured_install {states : List State} (hne : states ≠ []) :
    (g.install states).isConfigured = true := by
  simpa [Grammar.isConfigured, Grammar.install] using hne

theorem firstMissing?_eq_none {states : List State}
    (hstates : ∀ state ∈ states, ∀ e ∈ state.shifts.entries, e.2 < states.length) :
    firstMissing? states = none := by
  refine List.findSome?_eq_none_iff.mpr fun (state, i) hmem => ?_
  have hstate := hstates state (List.fst_mem_of_mem_zipIdx hmem)
  simpa [List.find?_eq_none] using fun s k he => hstate (s, k) he

theorem load_of_write (hg : g.symbols.Distinct) {states : List State}
    (hregular : (g.install states).Regular) (hne : states ≠ [])
    (hrules : g.rules.length ≤ maxUInt64) (hstates : states.length ≤ maxUInt64) {text : String}
    (hwrite : write (g.install states) = .ok text) : load g text = .ok (g.install states) := by
  rw [write, writeWithin, if_pos (isConfigured_install hne)] at hwrite
  obtain ⟨texts, hemit, rfl⟩ := map_ok hwrite
  have hlines := eq_map_ok_of_emit hemit
  have hfeed : ∀ line ∈ texts, '\n' ∉ line.toList := by
    intro line hmem
    refine feed_notMem_of_mem_tableLines (g := g.install states) ?_
    rw [hlines]
    exact List.mem_map.mpr ⟨line, hmem, rfl⟩
  have htop := (recovers_header (g := g) (d := {})).append
    ((recovers_rules hrules).append (recovers_count hstates))
  have hall := htop.append (recovers_states hg hrules hstates rfl le_rfl hregular)
  have hread := hall texts hlines 0
  have hmissing : firstMissing? states = none :=
    firstMissing?_eq_none fun state hmem e he =>
      (hregular state hmem).shift e.1 e.2 ((hregular state hmem).shifts.get?_eq_some.mpr he) |>.2
  rw [load, readStatesOf, pieces_unlines hfeed, List.map_map]
  simp only [Function.comp_def, hread, bind, Except.bind, finish, hmissing]
  simp [Except.map, hne]

theorem isUnwritable_iff {name : String} : isUnwritable name = true ↔
    name = "" ∨ (readNat maxUInt32 name.toList).isSome = true ∨
      ∃ c ∈ name.toList, c = ',' ∨ isBlank c = true := by
  simp [isUnwritable, or_assoc]

theorem write_error (hc : g.isConfigured = true) {e : TableError} (hwrite : write g = .error e) :
    .error e ∈ tableLines g := by
  rw [write, writeWithin, if_pos hc] at hwrite
  cases hemit : emit none (tableLines g) with
  | ok texts =>
    rw [hemit] at hwrite
    cases hwrite
  | error e' =>
    rw [hemit] at hwrite
    cases hwrite
    exact error_mem_of_emit hemit

theorem exists_write_error (hc : g.isConfigured = true) {e : TableError}
    (hmem : .error e ∈ tableLines g) : ∃ e', write g = .error e' := by
  cases hwrite : write g with
  | error e' => exact ⟨e', rfl⟩
  | ok text =>
    rw [write, writeWithin, if_pos hc] at hwrite
    obtain ⟨texts, hemit, -⟩ := map_ok hwrite
    rw [eq_map_ok_of_emit hemit] at hmem
    obtain ⟨_, -, he⟩ := List.mem_map.mp hmem
    cases he

/-- The counts of rules and states fit a machine word, as counts of things in memory do; longer
ones would be written but not read. -/
theorem write_round_trip (hg : g.Reached) (hc : g.isConfigured = true)
    (hrules : g.rules.length ≤ maxUInt64) (hstates : g.states.length ≤ maxUInt64) :
    (∀ text, write g = .ok text → ∀ h : Grammar, h.symbols = g.symbols →
      h.rules.length = g.rules.length → ∃ h', load h text = .ok h' ∧ h'.states = g.states ∧
        h'.rows = [] ∧ h'.conflicts = [] ∧ write h' = .ok text) ∧
    (∀ e, write g = .error e → ∃ name, e = .unwritableName name) ∧
    ((∃ e, write g = .error e) ↔ ∃ state ∈ g.states, ∃ s,
      (s ∈ state.shifts.keys ∨ s ∈ state.reduces.keys) ∧ g.symbols.isTerminal s = false ∧
        (g.symbols.name s = "" ∨ (readNat maxUInt32 (g.symbols.name s).toList).isSome = true ∨
          ∃ c ∈ (g.symbols.name s).toList, c = ',' ∨ isBlank c = true)) := by
  have hne : g.states ≠ [] := by simpa [Grammar.isConfigured] using hc
  refine ⟨fun text hwrite h hsymbols hlen => ?_, fun e hwrite => ?_, ?_, ?_⟩
  · have hlines : tableLines (h.install g.states) = tableLines g := by
      simp only [tableLines, Grammar.install, hsymbols, hlen]
    have hinstalled : write (h.install g.states) = .ok text := by
      rw [write, writeWithin, if_pos hc] at hwrite
      rw [write, writeWithin, if_pos (isConfigured_install hne), hlines, hwrite]
    have hdistinct : h.symbols.Distinct := hsymbols ▸ hg.symbols_built.distinct
    have hregular : (h.install g.states).Regular := by
      intro state hmem
      simpa only [Grammar.install, hsymbols, hlen] using hg.regular state hmem
    exact ⟨_, load_of_write hdistinct hregular hne (hlen ▸ hrules) hstates hinstalled, rfl, rfl,
      rfl, hinstalled⟩
  · obtain ⟨_, -, s, -, hs⟩ := error_mem_tableLines.mp (write_error hc hwrite)
    exact ⟨_, (symbolField_error.mp hs).1⟩
  · rintro ⟨e, hwrite⟩
    obtain ⟨state, hmem, s, hkey, hs⟩ := error_mem_tableLines.mp (write_error hc hwrite)
    obtain ⟨-, hterminal, hname⟩ := symbolField_error.mp hs
    exact ⟨state, hmem, s, hkey, hterminal, isUnwritable_iff.mp hname⟩
  · rintro ⟨state, hmem, s, hkey, hterminal, hname⟩
    have hs := symbolField_error.mpr ⟨rfl, hterminal, isUnwritable_iff.mpr hname⟩
    exact exists_write_error hc (error_mem_tableLines.mpr ⟨state, hmem, s, hkey, hs⟩)

theorem chain_reached : Grammar.chain.configure.2.Reached := by
  refine .configure (.addRule (.addRule (.setStart (.new Grammar.chainSymbols_built) ?_) ?_) ?_)
  · decide +kernel
  · decide +kernel
  · decide +kernel

theorem chain_write_round_trip : ∃ text, write Grammar.chain.configure.2 = .ok text ∧
    ∃ h', load Grammar.chain text = .ok h' ∧ h'.states = Grammar.chain.configure.2.states := by
  have hc : Grammar.chain.configure.2.isConfigured = true := by decide +kernel
  have hrules : Grammar.chain.configure.2.rules.length ≤ maxUInt64 := by decide +kernel
  have hstates : Grammar.chain.configure.2.states.length ≤ maxUInt64 := by decide +kernel
  obtain ⟨htrip, -, -⟩ := write_round_trip chain_reached hc hrules hstates
  have hok : (write Grammar.chain.configure.2).isOk = true := by decide +kernel
  obtain ⟨hsymbols, hrules', -⟩ := Grammar.chain.configure_keeps
  cases hwrite : write Grammar.chain.configure.2 with
  | error e =>
    rw [hwrite] at hok
    cases hok
  | ok text =>
    obtain ⟨h', hload, hstates', -⟩ :=
      htrip text hwrite Grammar.chain hsymbols.symm (congrArg List.length hrules'.symm)
    exact ⟨text, rfl, h', hload, hstates'⟩

end CanonicalLR.Table
