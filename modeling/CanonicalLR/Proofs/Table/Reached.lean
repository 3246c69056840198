import CanonicalLR.Proofs.Grammar.Regular
import CanonicalLR.Proofs.Results
import CanonicalLR.Table.Reader

/-! Grammars made by the operations on them, reading a table included. However their states came
about, the states are regular. -/

namespace CanonicalLR

namespace Table

open CanonicalLR.Text

variable {g g' : Grammar} {d d' : Draft} {line : Nat} {fs rest : Fields}

theorem registered_of_findSymbol {r : Registry} {field : List Char} {s : SymbolId}
    (h : findSymbol r field = some s) : r.Registered s := by
  rw [findSymbol] at h
  split at h
  · exact Registry.registered_of_isTerminal (Registry.isTerminal_of_byType? h)
  · exact Registry.registered_of_byName? (Option.eq_some_of_filter_eq_some h)

/-- What one line can do to the states that are read. -/
inductive Change (g : Grammar) : List State → List State → Prop where
  | keep {states : List State} : Change g states states
  | state {states : List State} : Change g states (states ++ [({} : State)])
  | shift {states : List State} {s : SymbolId} {next : Nat} : g.symbols.Registered s →
      Change g states (states.modify (states.length - 1) fun state =>
        { state with shifts := state.shifts.insert s next })
  | reduce {states : List State} {s : SymbolId} {rule : Nat} : g.symbols.Registered s →
      rule < g.rules.length → Change g states (states.modify (states.length - 1) fun state =>
        { state with reduces := state.reduces.insert s rule })

theorem registered_of_takeEntry {tag : String} {s : SymbolId} {target : Nat}
    (h : takeEntry g line tag d fs = .ok (s, target, rest)) : g.symbols.Registered s := by
  obtain ⟨⟨t, left⟩, hsymbol, h⟩ := bind_ok h
  obtain ⟨⟨n, left'⟩, -, h⟩ := bind_ok h
  have hs : t = s := by
    dsimp only at h
    split at h
    · cases h
    · simp only [Except.ok.injEq, Prod.mk.injEq] at h
      exact h.1
  cases fs with
  | nil => cases hsymbol
  | cons field fs =>
    rw [takeSymbol] at hsymbol
    split at hsymbol
    · rename_i found
      simp only [Except.ok.injEq, Prod.mk.injEq] at hsymbol
      rw [← hs, ← hsymbol.1]
      exact registered_of_findSymbol found
    · cases hsymbol

theorem change_of_readRecord {tag : String} (h : readRecord g line d tag fs = .ok (d', rest)) :
    Change g d.states d'.states := by
  unfold readRecord at h
  split at h
  · obtain ⟨⟨found, left⟩, -, h⟩ := bind_ok h
    dsimp only at h
    split at h
    · cases h
      exact .keep
    · cases h
  · obtain ⟨⟨declared, left⟩, -, h⟩ := bind_ok h
    cases h
    exact .keep
  · obtain ⟨⟨index, left⟩, -, h⟩ := bind_ok h
    dsimp only at h
    split at h
    · cases h
      exact .state
    · cases h
  · obtain ⟨⟨s, next, left⟩, hentry, h⟩ := bind_ok h
    cases h
    exact .shift (registered_of_takeEntry hentry)
  · obtain ⟨⟨s, rule, left⟩, hentry, h⟩ := bind_ok h
    dsimp only at h
    split at h
    · rename_i hlt
      cases h
      exact .reduce (registered_of_takeEntry hentry) hlt
    · cases h
  · cases h

theorem change_of_readLine {text : List Char} (h : readLine g line d text = .ok d') :
    Change g d.states d'.states := by
  simp only [readLine] at h
  split at h
  · cases h
    exact .keep
  · split at h
    · cases h
      exact .keep
    · obtain ⟨⟨d'', left⟩, hrecord, h⟩ := bind_ok h
      dsimp only at h
      split at h
      · cases h
        exact change_of_readRecord hrecord
      · cases h

/-- A state read so far: the targets of its shifts are looked at in the end. -/
structure Sorted (g : Grammar) (state : State) : Prop where
  ordered : state.Ordered
  shift : ∀ s k, state.shift? s = some k → g.symbols.Registered s
  reduce : ∀ s i, state.reduce? s = some i → g.symbols.Registered s ∧ i < g.rules.length

theorem sorted_empty (g : Grammar) : Sorted g ({} : State) :=
  ⟨⟨SymbolMap.ordered_empty, SymbolMap.ordered_empty⟩, nofun, nofun⟩

theorem Sorted.insertShift {state : State} (h : Sorted g state) {s : SymbolId}
    (hs : g.symbols.Registered s) (next : Nat) :
    Sorted g { state with shifts := state.shifts.insert s next } := by
  refine ⟨⟨h.ordered.1.insert s next, h.ordered.2⟩, fun t k hk => ?_, h.reduce⟩
  simp only [State.shift?, SymbolMap.get?_insert] at hk
  split at hk
  · rename_i he
    exact he ▸ hs
  · exact h.shift t k hk

theorem Sorted.insertReduce {state : State} (h : Sorted g state) {s : SymbolId} {rule : Nat}
    (hs : g.symbols.Registered s) (hrule : rule < g.rules.length) :
    Sorted g { state with reduces := state.reduces.insert s rule } := by
  refine ⟨⟨h.ordered.1, h.ordered.2.insert s rule⟩, h.shift, fun t i hi => ?_⟩
  simp only [State.reduce?, SymbolMap.get?_insert] at hi
  split at hi
  · rename_i he
    cases hi
    exact ⟨he ▸ hs, hrule⟩
  · exact h.reduce t i hi

theorem forall_mem_modify {α : Type} {p : α → Prop} {xs : List α} {change : α → α} {k : Nat}
    (h : ∀ x ∈ xs, p x) (hchange : ∀ x, p x → p (change x)) : ∀ x ∈ xs.modify k change, p x := by
  intro x hx
  obtain ⟨j, hj⟩ := List.mem_iff_getElem?.mp hx
  rw [List.getElem?_modify] at hj
  obtain ⟨y, hy, rfl⟩ := Option.map_eq_some_iff.mp hj
  have hp := h y (List.mem_of_getElem? hy)
  split
  · exact hchange y hp
  · exact hp

theorem Change.sorted {states states' : List State} (h : Change g states states')
    (hs : ∀ state ∈ states, Sorted g state) : ∀ state ∈ states', Sorted g state := by
  cases h with
  | keep => exact hs
  | state => simpa [or_imp, forall_and] using ⟨hs, sorted_empty g⟩
  | shift hreg => exact forall_mem_modify hs fun _ h => h.insertShift hreg _
  | reduce hreg hrule => exact forall_mem_modify hs fun _ h => h.insertReduce hreg hrule

theorem sorted_of_readLines {lines : List (Option (List Char))} {last : Nat}
    (h : readLines g line d lines = .ok (last, d')) (hs : ∀ state ∈ d.states, Sorted g state) :
    ∀ state ∈ d'.states, Sorted g state := by
  induction lines generalizing line d with
  | nil =>
    cases h
    exact hs
  | cons text lines ih =>
    cases text with
    | none => cases h
    | some text =>
      obtain ⟨d₁, hline, hrest⟩ := bind_ok h
      exact ih hrest ((change_of_readLine hline).sorted hs)

theorem lt_of_firstMissing? {states : List State} (h : firstMissing? states = none)
    {state : State} (hmem : state ∈ states) {e : SymbolId × Nat} (he : e ∈ state.shifts.entries) :
    e.2 < states.length := by
  obtain ⟨i, hi⟩ := List.mem_iff_getElem?.mp hmem
  have hnone := List.findSome?_eq_none_iff.mp h (state, i) (List.mem_zipIdx_iff_getElem?.mpr hi)
  simp only [Option.map_eq_none_iff, List.find?_eq_none] at hnone
  simpa using hnone e he

theorem regular_of_readStatesOf {lines : List (Option (List Char))} {states : List State}
    (h : readStatesOf g lines = .ok states) : (g.install states).Regular := by
  obtain ⟨⟨last, d⟩, hlines, hfinish⟩ := bind_ok h
  have hsorted := sorted_of_readLines hlines (by simp)
  dsimp only [finish] at hfinish
  split at hfinish
  · cases hfinish
  · cases hfinish
  · split at hfinish
    · cases hfinish
    · split at hfinish
      · cases hfinish
      · rename_i hnone
        cases hfinish
        intro state hmem
        obtain ⟨hordered, hshift, hreduce⟩ := hsorted state hmem
        refine ⟨hordered.1, hordered.2, fun s k hk => ⟨hshift s k hk, ?_⟩, hreduce⟩
        exact lt_of_firstMissing? hnone hmem (hordered.1.get?_eq_some.mp hk)

end Table

namespace Grammar

inductive Reached : Grammar → Prop where
  | new {r : Registry} : r.Built → Reached (.new r)
  | addRule {g : Grammar} {rule : Rule} :
      Reached g → (∀ s, rule.Mentions s → g.symbols.Registered s) → Reached (g.addRule rule)
  | setStart {g : Grammar} {s : SymbolId} :
      Reached g → g.symbols.Registered s → Reached (g.setStart s)
  | setPrecedence {g : Grammar} {s : SymbolId} {level : Int} :
      Reached g → Reached (g.setPrecedence s level)
  | setAssoc {g : Grammar} {s : SymbolId} {assoc : Assoc} :
      Reached g → Reached (g.setAssoc s assoc)
  | configure {g : Grammar} : Reached g → Reached g.configure.2
  | load {g g' : Grammar} {text : String} : Reached g → Table.load g text = .ok g' → Reached g'
  | loadBytes {g g' : Grammar} {bytes : List UInt8} :
      Reached g → Table.loadBytes g bytes = .ok g' → Reached g'

variable {g : Grammar}

theorem Reached.built (h : g.Reached) : g.Built := by
  have loaded : ∀ {g g' : Grammar} {lines : List (Option (List Char))}, g.Built →
      (Table.readStatesOf g lines).map g.install = .ok g' → g'.Built := by
    intro g g' lines hg h
    obtain ⟨states, -, rfl⟩ := map_ok h
    exact hg.install
  induction h with
  | new hr => exact .new hr
  | addRule _ hr ih => exact ih.addRule hr
  | setStart _ hs ih => exact ih.setStart hs
  | setPrecedence _ ih => exact ih.setPrecedence
  | setAssoc _ ih => exact ih.setAssoc
  | configure _ ih => exact ih.configure
  | load _ h ih => exact loaded ih h
  | loadBytes _ h ih => exact loaded ih h

theorem Reached.registered (h : g.Reached) : g.Registered := h.built.registered

theorem configure_ok_or_states_eq_nil (g : Grammar) :
    g.configure = (.ok (), g.configure.2) ∨ g.configure.2.states = [] := by
  unfold configure
  split
  · exact Or.inr rfl
  · simp only [build]
    split
    · exact Or.inl rfl
    · exact Or.inr rfl

theorem regular_of_states_eq_nil (h : g.states = []) : g.Regular := by
  intro state hmem
  rw [h] at hmem
  cases hmem

theorem Reached.regular (h : g.Reached) : g.Regular := by
  induction h with
  | new _ => exact regular_of_states_eq_nil rfl
  | addRule _ _ _ => exact regular_of_states_eq_nil rfl
  | setStart _ _ _ => exact regular_of_states_eq_nil rfl
  | setPrecedence _ ih => exact ih
  | setAssoc _ ih => exact ih
  | @configure g hg _ =>
    rcases g.configure_ok_or_states_eq_nil with hok | hnil
    · exact regular_of_ok hg.built hg.registered hok
    · exact regular_of_states_eq_nil hnil
  | load _ h _ =>
    obtain ⟨states, hread, rfl⟩ := map_ok h
    exact Table.regular_of_readStatesOf hread
  | loadBytes _ h _ =>
    obtain ⟨states, hread, rfl⟩ := map_ok h
    exact Table.regular_of_readStatesOf hread

theorem Reached.symbols_built (h : g.Reached) : g.symbols.Built := h.built.symbols_built

end Grammar

end CanonicalLR
