import CanonicalLR.Parser.Recorder
import CanonicalLR.Parser.Replay
import CanonicalLR.Proofs.Parser.Lockstep
import Mathlib.Logic.Relation

/-! What a machine meets on its way: whatever table was loaded, every index that it looks up is in
range, and a table that does not fit ends in an error at the token ahead. -/

namespace CanonicalLR

/-- The error is that `t` cannot stand where it does. -/
inductive ParseError.Refuses (t : Token) : ParseError → Prop where
  | unexpectedEnd : t.isEnd = true → Refuses t (.unexpectedEnd t.span)
  | syntactic {expected : String} : t.isEnd = false → Refuses t (.syntactic t.span t.text expected)

namespace Engine

variable {σ β ν : Type} {e : Engine σ β ν} {m : Machine σ β ν} {c : Config σ β ν} {t : Token}

theorem refuses_refuse (e : Engine σ β ν) (state : Nat) (t : Token) :
    (e.refuse state t).Refuses t := by
  rw [refuse]
  split
  · rename_i hend
    exact .unexpectedEnd hend
  · rename_i hend
    exact .syntactic (by simpa using hend)

/-- Turns lead from the first machine to the second. -/
abbrev Leads (e : Engine σ β ν) : Machine σ β ν → Machine σ β ν → Prop :=
  Relation.ReflTransGen fun m m' => e.turn? m = some (.more m')

/-- A reduction by the rule with this index is due before `t`. -/
def Due (e : Engine σ β ν) (m : Machine σ β ν) (t : Token) (i : Nat) : Prop :=
  m.ahead = some t ∧ ∃ s state actions, e.grammar.symbols.byType? t.type = some s ∧
    m.top? = some state ∧ e.grammar.states[state]? = some actions ∧
    actions.shift? s = none ∧ actions.reduce? s = some i

/-- The turn ends the run with the error that `t` cannot stand there. -/
def Stops (e : Engine σ β ν) (m : Machine σ β ν) (t : Token) : Prop :=
  ∃ err left, err.Refuses t ∧ e.turn? m = some (.done (.error err) left)

/-- What holds whenever the machine comes to a turn. -/
structure Guarded (e : Engine σ β ν) (m : Machine σ β ν) : Prop where
  length : m.states.length = m.entries.length + 1
  state : ∀ state ∈ m.states, state < e.grammar.states.length
  turn : ∃ turn, e.turn? m = some turn
  rule : ∀ t i, e.Due m t i → i < e.grammar.rules.length
  exposed : ∀ t i rule builder, e.Due m t i → e.grammar.rules[i]? = some rule →
    rule.rhs.length ≤ m.entries.length → ∃ state,
      (m.cut rule builder).states[m.base rule]? = some state ∧ state < e.grammar.states.length
  /-- The rule asks for more than there is on the stack. -/
  deep : ∀ t i rule, e.Due m t i → i ≠ 0 → e.grammar.rules[i]? = some rule →
    m.entries.length < rule.rhs.length → e.Stops m t
  /-- The exposed state does not know where to go after the rule. -/
  astray : ∀ t i rule n builder state actions, e.Due m t i → i ≠ 0 →
    e.grammar.rules[i]? = some rule → rule.rhs.length ≤ m.entries.length →
    m.call e.builder rule t = (.ok (some n), builder) →
    (m.cut rule builder).states[m.base rule]? = some state →
    e.grammar.states[state]? = some actions → actions.shift? rule.lhs = none → e.Stops m t
  /-- What is accepted is not one node alone. -/
  unready : ∀ t, e.Due m t 0 → (∀ n, m.entries.map (·.child) ≠ [.node n]) → e.Stops m t

theorem Due.turn?_eq (h : e.InRange c) (hg : e.grammar.Reached) {i : Nat}
    (hdue : e.Due c.machine t i) : i < e.grammar.rules.length ∧
      (i = 0 → e.turn? c.machine = e.accept? c.machine (topState c.frames) t) ∧
      (∀ rule, i ≠ 0 → e.grammar.rules[i]? = some rule →
        e.turn? c.machine = e.reduce? c.machine (topState c.frames) t rule) := by
  obtain ⟨hahead, s, state, actions, hs, htop, hactions, hshift, hreduce⟩ := hdue
  obtain rfl := Option.some.inj (htop.symm.trans (machine_top? c))
  obtain rfl := Option.some.inj (hactions.symm.trans (Grammar.getElem?_states h.topState))
  obtain ⟨names, hnames⟩ := exists_names h
  obtain ⟨rule, hrule, symbols, hsymbols⟩ := exists_rule hg h.topState hreduce
  refine ⟨(List.getElem?_eq_some_iff.mp hrule).1, ?_, ?_⟩
  · rintro rfl
    simp [turn?, hahead, hnames, machine_top?, hs, Grammar.getElem?_states h.topState, hshift, hreduce]
  · intro rule' hne hrule'
    obtain rfl := Option.some.inj (hrule.symm.trans hrule')
    obtain ⟨i, rfl⟩ := Nat.exists_eq_succ_of_ne_zero hne
    simp only [turn?, hahead, hnames, machine_top?, hs, Grammar.getElem?_states h.topState, hshift,
      hreduce, hrule, hsymbols, Option.bind_eq_bind, Option.bind_some]

theorem stops_of_refuse? (hg : e.grammar.Regular) {state : Nat} {left : Machine σ β ν}
    (hstate : state < e.grammar.states.length)
    (hturn : e.turn? m = e.refuse? left state t) : e.Stops m t :=
  ⟨_, left, refuses_refuse e state t, hturn.trans (refuse?_eq hg hstate left t)⟩

theorem state_lt_of_mem (h : e.InRange c) {state : Nat} (hmem : state ∈ c.machine.states) :
    state < e.grammar.states.length := by
  rcases List.mem_cons.mp hmem with rfl | hmem
  · exact List.length_pos_iff.mpr h.states
  · obtain ⟨f, hf, rfl⟩ := List.mem_map.mp hmem
    exact (h.frame f (List.mem_reverse.mp hf)).1

theorem InRange.below (h : e.InRange c) (rule : Rule) :
    CanonicalLR.topState (below c rule) < e.grammar.states.length := by
  have hbelow : e.InRange ⟨Engine.below c rule, none, c.parser⟩ :=
    h.of_subset (List.drop_subset _ _)
  exact hbelow.topState

theorem stops_of_unready (h : e.InRange c) (hg : e.grammar.Reached) (hdue : e.Due c.machine t 0)
    (hunready : ∀ n, c.machine.entries.map (·.child) ≠ [.node n]) : e.Stops c.machine t := by
  have hturn := (hdue.turn?_eq h hg).2.1 rfl
  rcases e.accept?_cases c t with ⟨n, left, hready, -⟩ | ⟨left, -, hrefuse, -⟩
  · exact absurd hready (hunready n)
  · exact stops_of_refuse? hg.regular h.topState (hturn.trans hrefuse)

theorem guarded (h : e.InRange c) (hg : e.grammar.Reached) : e.Guarded c.machine where
  length := by simp [Config.machine]
  state := fun _ hmem => state_lt_of_mem h hmem
  turn := let ⟨turn, hturn, _⟩ := lockstep h hg; ⟨turn, hturn⟩
  rule := fun _ _ hdue => (hdue.turn?_eq h hg).1
  exposed := by
    intro t i rule builder _ _ hlen
    rw [Config.machine, length_entriesOf] at hlen
    exact ⟨_, machine_exposed hlen builder, h.below rule⟩
  deep := by
    intro t i rule hdue hne hrule hlt
    have hturn := (hdue.turn?_eq h hg).2.2 rule hne hrule
    rw [reduce?, if_pos hlt] at hturn
    exact stops_of_refuse? hg.regular h.topState hturn
  astray := by
    intro t i rule n builder state actions hdue hne hrule hlen hcall hstate hactions hshift
    have hturn := (hdue.turn?_eq h hg).2.2 rule hne hrule
    rw [reduce?, if_neg (Nat.not_lt.mpr hlen), hcall] at hturn
    simp only [hstate, hactions, hshift, Option.bind_eq_bind, Option.bind_some] at hturn
    rw [Config.machine, length_entriesOf] at hlen
    obtain rfl := Option.some.inj (hstate.symm.trans (machine_exposed hlen builder))
    exact stops_of_refuse? hg.regular (h.below rule) hturn
  unready := fun _ hdue hunready => stops_of_unready h hg hdue hunready

theorem exists_config_of_leads (h : e.InRange c) (hg : e.grammar.Reached)
    (hleads : e.Leads c.machine m) : ∃ c', m = c'.machine ∧ e.InRange c' := by
  induction hleads with
  | refl => exact ⟨c, rfl, h⟩
  | tail _ hturn ih =>
    obtain ⟨c', rfl, hc'⟩ := ih
    obtain ⟨turn, hturn', hlock⟩ := lockstep hc' hg
    obtain rfl := Option.some.inj (hturn.symm.trans hturn')
    generalize hstep : e.step c' = progress at hlock
    cases hlock with
    | more hm => exact ⟨_, hm, hc'.step hg.regular hstep⟩

/-- Whatever was done to the grammar, and whatever the machine was left with, a parse of a text
looks up no index that is out of range, and it answers as the parser does. -/
theorem parseOn_in_range (hg : e.grammar.Reached) (left : Machine σ β ν) (text : String) :
    (e.grammar.isConfigured = true → ∀ m, e.Leads (e.begin left text) m → e.Guarded m) ∧
      ∀ fuel, (e.parseOn fuel left text).answer? = some (e.parse fuel left.parser text) := by
  refine ⟨fun hconf m hleads => ?_, fun fuel => parseOn_answer? hg fuel left text⟩
  obtain ⟨c, rfl, hc⟩ := exists_config_of_leads (inRange_start hconf left.parser text) hg hleads
  exact guarded hc hg

/-! A table for `S → x S` and `S →` that asks for two frames where there is none, and leads to a
state that does not know where to go after `S`. -/

def twisted : Grammar :=
  Grammar.chain.install
    [⟨⟨[(3, 1)]⟩, ⟨[(0, 1)]⟩⟩, ⟨{}, ⟨[(0, 2)]⟩⟩]

def twistedText : String :=
  "RULES,3\nSTATES,2\nS,0\nSH,120,1\nRD,261,1\nS,1\nRD,261,2\n"

theorem twisted_reached : twisted.Reached := by
  have hload : Table.load Grammar.chain twistedText = .ok twisted := by decide +kernel
  refine .load (.addRule (.addRule (.setStart (.new Grammar.chainSymbols_built) ?_) ?_) ?_) hload
  all_goals decide +kernel

def twistedEngine : Engine Replay Recorder Nat := ⟨twisted, Replay.source, Recorder.builder [] []⟩

/-- A state that is not there was left on one array, and nothing on the other. -/
def twistedLeft (tokens : List Token) : Machine Replay Recorder Nat :=
  ⟨[7], [], none, ⟨.ofTokens tokens, {}, {}⟩⟩

theorem twisted_parseOn_in_range : twistedEngine.grammar.Reached ∧
    (∀ m, twistedEngine.Leads (twistedEngine.begin (twistedLeft [.punct (.single 0) 'x']) "") m →
      twistedEngine.Guarded m) ∧
    (∃ p, (twistedEngine.parseOn 9 (twistedLeft []) "").answer? =
      some (some (.error (.unexpectedEnd (.single 0)), p))) ∧
    ∃ p, (twistedEngine.parseOn 9 (twistedLeft [.punct (.single 0) 'x']) "").answer? =
      some (some (.error (.unexpectedEnd (.single 1)), p)) := by
  have hg : twistedEngine.grammar.Reached := twisted_reached
  obtain ⟨hguarded, hanswer⟩ := parseOn_in_range hg (twistedLeft [.punct (.single 0) 'x']) ""
  refine ⟨hg, hguarded rfl, ⟨_, (parseOn_in_range hg (twistedLeft []) "").2 9⟩, ?_⟩
  exact ⟨_, hanswer 9⟩

end Engine

end CanonicalLR
