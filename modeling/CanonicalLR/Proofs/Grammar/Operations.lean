import CanonicalLR.Proofs.Table.Reached

/-! The operations on a grammar, one after the other. Whatever a client does, and whichever of its
calls fail, the parts of the grammar fit together. -/

namespace CanonicalLR.Grammar

variable {g g' : Grammar} {r : Registry}

/-! What the item sets, the states and the conflicts say of each other. -/

structure InStep (g : Grammar) : Prop where
  clear : g.states ≠ [] → g.conflicts = []
  rows : g.states ≠ [] → g.rows = [] ∨ g.states = g.rows.map (·.actions)
  conflicted : g.rows ≠ [] → g.states = [] → g.conflicts ≠ []

/-- The parts of a grammar fit together. -/
structure Coherent (g : Grammar) : Prop extends g.InStep where
  index : ∀ (i : Nat) (rule : Rule), g.rules[i]? = some rule → rule.index = i
  top : g.rules[0]? = some { id := 0, lhs := .start, rhs := g.start.toList }
  shift : ∀ state ∈ g.states, ∀ entry ∈ state.shifts.entries, entry.2 < g.states.length
  reduce : ∀ state ∈ g.states, ∀ entry ∈ state.reduces.entries, entry.2 < g.rules.length

theorem InStep.of_eq (h : g.InStep) (hrows : g'.rows = g.rows) (hstates : g'.states = g.states)
    (hconflicts : g'.conflicts = g.conflicts) : g'.InStep where
  clear := by rw [hstates, hconflicts]; exact h.clear
  rows := by rw [hstates, hrows]; exact h.rows
  conflicted := by rw [hstates, hrows, hconflicts]; exact h.conflicted

/-- Without item sets and conflicts there can be any states. -/
theorem inStep_of_eq_nil (hrows : g.rows = []) (hconflicts : g.conflicts = []) : g.InStep where
  clear := fun _ => hconflicts
  rows := fun _ => Or.inl hrows
  conflicted := fun hne => absurd hrows hne

theorem inStep_build (g : Grammar) : g.build.2.InStep := by
  simp only [build]
  split
  · refine ⟨fun _ => rfl, fun _ => Or.inr rfl, fun hne hnil => ?_⟩
    exact absurd (List.map_eq_nil_iff.mp hnil) hne
  · rename_i hconflicts
    refine ⟨fun hne => absurd rfl hne, fun hne => absurd rfl hne, fun _ _ hnil => hconflicts ?_⟩
    exact List.isEmpty_iff.mpr hnil

theorem inStep_configure (g : Grammar) : g.configure.2.InStep := by
  unfold configure
  split
  · exact inStep_of_eq_nil rfl rfl
  · exact inStep_build _

theorem Reached.inStep (h : g.Reached) : g.InStep := by
  induction h with
  | new _ => exact inStep_of_eq_nil rfl rfl
  | addRule _ _ _ => exact inStep_of_eq_nil rfl rfl
  | setStart _ _ _ => exact inStep_of_eq_nil rfl rfl
  | setPrecedence _ ih => exact ih.of_eq rfl rfl rfl
  | setAssoc _ ih => exact ih.of_eq rfl rfl rfl
  | configure _ _ => exact inStep_configure _
  | load _ h _ =>
    obtain ⟨states, -, rfl⟩ := map_ok h
    exact inStep_of_eq_nil rfl rfl
  | loadBytes _ h _ =>
    obtain ⟨states, -, rfl⟩ := map_ok h
    exact inStep_of_eq_nil rfl rfl

theorem Reached.coherent (h : g.Reached) : g.Coherent where
  toInStep := h.inStep
  index := h.built.wellFormed.index
  top := h.built.wellFormed.top
  shift := by
    intro state hstate entry hentry
    obtain ⟨hordered, -, hshift, -⟩ := h.regular state hstate
    exact (hshift entry.1 entry.2 (hordered.get?_eq_some.mpr hentry)).2
  reduce := by
    intro state hstate entry hentry
    obtain ⟨-, hordered, -, hreduce⟩ := h.regular state hstate
    exact (hreduce entry.1 entry.2 (hordered.get?_eq_some.mpr hentry)).2

theorem Reached.declare (h : g.Reached) (assoc : Assoc) (level : Int) (ids : List SymbolId) :
    (g.declare assoc level ids).Reached := by
  induction ids generalizing g with
  | nil => exact h
  | cons s ids ih => exact ih (.setAssoc (.setPrecedence h))

theorem states_of_configure_error {e : ConfigError} (h : g.configure.1 = .error e) :
    g.configure.2.states = [] := by
  rcases g.configure_ok_or_states_eq_nil with hok | hnil
  · rw [hok] at h
    cases h
  · exact hnil

/-! The calls of a client. -/

inductive Operation where
  | addRule (rule : Rule)
  | setStart (s : SymbolId)
  | setPrecedence (s : SymbolId) (level : Int)
  | setAssoc (s : SymbolId) (assoc : Assoc)
  | declare (assoc : Assoc) (level : Int) (ids : List SymbolId)
  | configure
  | load (text : String)
  | loadBytes (bytes : List UInt8)

/-- Why a call fails. -/
inductive Failure where
  | config (e : ConfigError)
  | table (e : TableError)

namespace Operation

/-- Its symbols are registered. -/
def Within (r : Registry) : Operation → Prop
  | addRule rule => ∀ s, rule.Mentions s → r.Registered s
  | setStart s | setPrecedence s _ | setAssoc s _ => r.Registered s
  | declare _ _ ids => ∀ s ∈ ids, r.Registered s
  | configure | load _ | loadBytes _ => True

instance (r : Registry) (op : Operation) : Decidable (op.Within r) :=
  match op with
  | addRule rule => inferInstanceAs (Decidable (∀ s, rule.Mentions s → r.Registered s))
  | setStart s | setPrecedence s _ | setAssoc s _ => inferInstanceAs (Decidable (r.Registered s))
  | declare _ _ ids => inferInstanceAs (Decidable (∀ s ∈ ids, r.Registered s))
  | configure | load _ | loadBytes _ => inferInstanceAs (Decidable True)

/-- The grammar as a table leaves it, which is as it was if the table cannot be read. -/
def loaded (g : Grammar) : Except TableError Grammar → Except Failure Unit × Grammar
  | .ok g' => (.ok (), g')
  | .error e => (.error (.table e), g)

def perform (g : Grammar) : Operation → Except Failure Unit × Grammar
  | addRule rule => (.ok (), g.addRule rule)
  | setStart s => (.ok (), g.setStart s)
  | setPrecedence s level => (.ok (), g.setPrecedence s level)
  | setAssoc s assoc => (.ok (), g.setAssoc s assoc)
  | declare assoc level ids => (.ok (), g.declare assoc level ids)
  | configure => (g.configure.1.mapError .config, g.configure.2)
  | load text => loaded g (Table.load g text)
  | loadBytes bytes => loaded g (Table.loadBytes g bytes)

def run (ops : List Operation) (g : Grammar) : Grammar := ops.foldl (fun g op => (op.perform g).2) g

def start? : Operation → Option SymbolId
  | setStart s => some s
  | _ => none

/-- The start symbol that was set last. -/
def lastStart? (ops : List Operation) : Option SymbolId := ops.reverse.findSome? start?

variable {op : Operation} {ops : List Operation}

theorem loaded_cases {loading : Except TableError Grammar} :
    (∃ g', loading = .ok g' ∧ loaded g loading = (.ok (), g')) ∨
      ∃ e, loading = .error e ∧ loaded g loading = (.error (.table e), g) := by
  cases loading with
  | ok g' => exact Or.inl ⟨g', rfl, rfl⟩
  | error e => exact Or.inr ⟨e, rfl, rfl⟩

theorem reached_perform (hg : g.Reached) (hop : op.Within g.symbols) : (op.perform g).2.Reached := by
  cases op with
  | addRule rule => exact .addRule hg hop
  | setStart s => exact .setStart hg hop
  | setPrecedence s level => exact .setPrecedence hg
  | setAssoc s assoc => exact .setAssoc hg
  | declare assoc level ids => exact hg.declare assoc level ids
  | configure => exact .configure hg
  | load text =>
    rcases @loaded_cases g (Table.load g text) with ⟨g', hload, heq⟩ | ⟨e, -, heq⟩ <;>
      rw [perform, heq]
    · exact .load hg hload
    · exact hg
  | loadBytes bytes =>
    rcases @loaded_cases g (Table.loadBytes g bytes) with ⟨g', hload, heq⟩ | ⟨e, -, heq⟩ <;>
      rw [perform, heq]
    · exact .loadBytes hg hload
    · exact hg

/-- No call changes the registry, and only one of them the start symbol. -/
theorem perform_keeps (op : Operation) (g : Grammar) : (op.perform g).2.symbols = g.symbols ∧
    (op.perform g).2.start = op.start?.or g.start := by
  have hloaded : ∀ lines : List (Option (List Char)),
      (loaded g ((Table.readStatesOf g lines).map g.install)).2.symbols = g.symbols ∧
        (loaded g ((Table.readStatesOf g lines).map g.install)).2.start = g.start := by
    intro lines
    cases Table.readStatesOf g lines <;> exact ⟨rfl, rfl⟩
  cases op with
  | addRule rule => exact ⟨rfl, rfl⟩
  | setStart s => exact ⟨rfl, rfl⟩
  | setPrecedence s level => exact ⟨rfl, rfl⟩
  | setAssoc s assoc => exact ⟨rfl, rfl⟩
  | declare assoc level ids =>
    obtain ⟨hsymbols, -, hstart⟩ := g.declare_keeps assoc level ids
    exact ⟨hsymbols, hstart⟩
  | configure =>
    obtain ⟨hsymbols, -, hstart⟩ := g.configure_keeps
    exact ⟨hsymbols, hstart⟩
  | load text => exact hloaded _
  | loadBytes bytes => exact hloaded _

/-- Only configuring and loading can fail. -/
theorem perform_error {e : Failure} (h : (op.perform g).1 = .error e) :
    (op = .configure ∧ (op.perform g).2.states = []) ∨
      (op ≠ .configure ∧ (op.perform g).2 = g) := by
  have hloaded : ∀ loading : Except TableError Grammar, (loaded g loading).1 = .error e →
      (loaded g loading).2 = g := by
    rintro (e | g') h
    · rfl
    · cases h
  cases op with
  | addRule | setStart | setPrecedence | setAssoc | declare => cases h
  | configure =>
    refine Or.inl ⟨rfl, ?_⟩
    cases hresult : g.configure.1 with
    | ok =>
      rw [perform, hresult] at h
      cases h
    | error e => exact states_of_configure_error hresult
  | load text => exact Or.inr ⟨nofun, hloaded _ h⟩
  | loadBytes bytes => exact Or.inr ⟨nofun, hloaded _ h⟩

theorem run_append (ops : List Operation) (op : Operation) (g : Grammar) :
    run (ops ++ [op]) g = (op.perform (run ops g)).2 := by
  rw [run, List.foldl_append]
  rfl

theorem run_keeps (ops : List Operation) (r : Registry) :
    (run ops (new r)).symbols = r ∧ (run ops (new r)).start = lastStart? ops := by
  induction ops using List.reverseRecOn with
  | nil => exact ⟨rfl, rfl⟩
  | append_singleton ops op ih =>
    obtain ⟨hsymbols, hstart⟩ := perform_keeps op (run ops (new r))
    rw [run_append]
    refine ⟨hsymbols.trans ih.1, ?_⟩
    rw [hstart, ih.2, lastStart?, lastStart?, List.reverse_append, List.reverse_singleton,
      List.singleton_append, List.findSome?_cons]
    cases op.start? <;> rfl

theorem reached_run (hr : r.Built) (hops : ∀ op ∈ ops, op.Within r) :
    (run ops (new r)).Reached := by
  induction ops using List.reverseRecOn with
  | nil => exact .new hr
  | append_singleton ops op ih =>
    rw [run_append]
    obtain ⟨hbefore, hop⟩ := List.forall_mem_append.mp hops
    refine reached_perform (ih hbefore) ?_
    rw [(run_keeps ops r).1]
    exact hop op (List.mem_singleton_self op)

/-- Whatever was done to a grammar, with an error or without, its parts fit together and its first
rule is for the start symbol that was set last. The next call that fails leaves no states if it is
to configure, and all as it was if it is to load a table. -/
theorem run_coherent (hr : r.Built) (hops : ∀ op ∈ ops, op.Within r) :
    (run ops (new r)).Coherent ∧ (run ops (new r)).start = lastStart? ops ∧
      ∀ (op : Operation) (e : Failure), (op.perform (run ops (new r))).1 = .error e →
        (op = .configure ∧ (op.perform (run ops (new r))).2.states = []) ∨
          (op ≠ .configure ∧ (op.perform (run ops (new r))).2 = run ops (new r)) :=
  ⟨(reached_run hr hops).coherent, (run_keeps ops r).2, fun _ _ h => perform_error h⟩

/-! The grammar `S → x S` and `S →`, with a table that cannot be read before it is configured. -/

def chainOperations : List Operation :=
  [.setStart 2, .addRule { id := 1, lhs := 2, rhs := [3, 2] }, .load "S,1",
    .addRule { id := 2, lhs := 2, rhs := [] }, .declare .left 5 [3], .configure]

theorem chain_run_coherent : (∀ op ∈ chainOperations, op.Within chainSymbols) ∧
    (run chainOperations (new chainSymbols)).Coherent ∧
    (run chainOperations (new chainSymbols)).start = some 2 ∧
    (run chainOperations (new chainSymbols)).states.length = 4 ∧
    ∃ e, ((load "S,1").perform (run chainOperations (new chainSymbols))).1 = .error e ∧
      ((load "S,1").perform (run chainOperations (new chainSymbols))).2 =
        run chainOperations (new chainSymbols) := by
  have hops : ∀ op ∈ chainOperations, op.Within chainSymbols := by decide +kernel
  obtain ⟨hcoherent, hstart, herror⟩ := run_coherent chainSymbols_built hops
  have hfails : ((load "S,1").perform (run chainOperations (new chainSymbols))).1.toOption =
      none := by decide +kernel
  obtain ⟨e, hresult⟩ := toOption_eq_none_iff.mp hfails
  refine ⟨hops, hcoherent, hstart, by decide +kernel, e, hresult, ?_⟩
  rcases herror _ e hresult with ⟨h, -⟩ | ⟨-, h⟩
  · cases h
  · exact h

end Operation

end CanonicalLR.Grammar
