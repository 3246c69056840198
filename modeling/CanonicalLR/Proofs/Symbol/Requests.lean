import CanonicalLR.Proofs.Symbol.Registry

/-! Requests for symbols, one after the other. Whichever of them fail, the registry finds its symbols
by their numbers, names and types alike, and what a request comes to depends only on the symbols
that are there. -/

namespace CanonicalLR.Registry

variable {r r' : Registry} {sym : Symbol}

/-! How the numbers, names and types of a registry fit together. -/

structure Consistent (r : Registry) : Prop where
  two_le : 2 ≤ r.size
  size_le : r.size ≤ maxSymbols
  numbered : r.toList.map (·.1.val) = List.range r.size
  issued : ∀ s, (∃ sym, r.get? s = some sym) ↔ s.val < r.size
  finish : r.get? .finish = some ⟨"end", .terminal 261⟩
  start : r.get? .start = some ⟨"$start", .nonterminal⟩
  names : (r.symbols.map (·.name)).Nodup
  types : (r.symbols.filterMap (·.type?)).Nodup
  byName : ∀ name s, r.byName? name = some s ↔ ∃ kind, r.get? s = some ⟨name, kind⟩
  byType : ∀ type s, r.byType? type = some s ↔ ∃ name, r.get? s = some ⟨name, .terminal type⟩

theorem numbers_eq_range (h : r.size ≤ maxSymbols) :
    r.toList.map (·.1.val) = List.range r.size := by
  have hlen : r.toList.length = r.size := by
    rw [toList, List.length_zip, SymbolId.all, List.length_finRange]
    exact Nat.min_eq_right h
  refine List.ext_getElem (by simp [hlen]) fun i hi hi' => ?_
  simp [toList, SymbolId.all]

theorem kind_eq_of_type? {type : TokenType} (h : sym.type? = some type) :
    sym.kind = .terminal type := by
  obtain ⟨name, kind⟩ := sym
  cases kind with
  | terminal type' => exact congrArg SymbolKind.terminal (Option.some.inj h)
  | nonterminal => cases h

theorem Distinct.nodup_names (h : r.Distinct) : (r.symbols.map (·.name)).Nodup :=
  List.pairwise_map.mpr (h.imp And.left)

theorem Distinct.nodup_types (h : r.Distinct) : (r.symbols.filterMap (·.type?)).Nodup := by
  refine List.pairwise_filterMap.mpr (h.imp fun {a b} hab type ha type' hb he => ?_)
  subst he
  exact hab.2 type (kind_eq_of_type? hb) (kind_eq_of_type? ha)

theorem Built.consistent (h : r.Built) : r.Consistent where
  two_le := (List.getElem?_eq_some_iff.mp h.sound.start).1
  size_le := h.sound.size_le
  numbered := numbers_eq_range h.sound.size_le
  issued := fun _ => ⟨fun ⟨_, hs⟩ => registered_of_get? hs,
    fun hs => ⟨_, List.getElem?_eq_getElem hs⟩⟩
  finish := h.sound.finish
  start := h.sound.start
  names := h.distinct.nodup_names
  types := h.distinct.nodup_types
  byName := fun _ _ => ⟨get?_of_byName?, fun ⟨_, hs⟩ => h.distinct.byName?_eq hs⟩
  byType := fun _ _ => ⟨get?_of_byType?, fun ⟨_, hs⟩ => h.distinct.byType?_eq hs⟩

/-! What a request comes to. -/

/-- A symbol has the name and is of another kind or type, or has the type and another name. -/
def Clashes (r : Registry) (sym : Symbol) : Prop :=
  ∃ other ∈ r.symbols, (other.name = sym.name ∧ other.kind ≠ sym.kind) ∨
    (other.name ≠ sym.name ∧ other.kind = sym.kind ∧ sym.isTerminal = true)

theorem Sound.exists_get? (h : r.Sound) (hsym : sym ∈ r.symbols) : ∃ s, r.get? s = some sym := by
  obtain ⟨i, hi, rfl⟩ := List.mem_iff_getElem.mp hsym
  exact ⟨⟨i, Nat.lt_of_lt_of_le hi h.size_le⟩, List.getElem?_eq_getElem hi⟩

theorem Built.not_clashes (h : r.Built) (hsym : sym ∈ r.symbols) : ¬ r.Clashes sym := by
  rintro ⟨other, hother, hclash⟩
  obtain ⟨s, hs⟩ := h.sound.exists_get? hsym
  obtain ⟨t, ht⟩ := h.sound.exists_get? hother
  have hsame : t = s → other = sym := by
    rintro rfl
    exact Option.some.inj (ht.symm.trans hs)
  rcases hclash with ⟨hname, hkind⟩ | ⟨hname, hkind, hterminal⟩
  · have hfound := h.distinct.byName?_eq ht
    rw [hname, h.distinct.byName?_eq hs] at hfound
    exact hkind (congrArg Symbol.kind (hsame (Option.some.inj hfound).symm))
  · obtain ⟨name, kind⟩ := sym
    obtain ⟨name', kind'⟩ := other
    cases kind with
    | nonterminal => cases hterminal
    | terminal type =>
      obtain rfl : kind' = .terminal type := hkind
      have hfound := h.distinct.byType?_eq ht
      rw [h.distinct.byType?_eq hs] at hfound
      exact hname (congrArg Symbol.name (hsame (Option.some.inj hfound).symm))

theorem Sound.not_clashes_of_fresh (h : r.Sound) (hfresh : r.Fresh sym) :
    ¬ r.Clashes sym ∧ sym ∉ r.symbols := by
  refine ⟨?_, fun hmem => (hfresh.apart h.size_le hmem).1 rfl⟩
  rintro ⟨other, hother, hclash⟩
  obtain ⟨hname, htype⟩ := hfresh.apart h.size_le hother
  rcases hclash with ⟨he, -⟩ | ⟨-, hkind, hterminal⟩
  · exact hname he
  · obtain ⟨name, kind⟩ := sym
    cases kind with
    | terminal type => exact htype type rfl hkind
    | nonterminal => cases hterminal

/-- The answers to a request for a symbol, each with the condition under which it is given. -/
inductive Answers (r : Registry) (sym : Symbol) : Except ConfigError (SymbolId × Registry) → Prop where
  | found {s : SymbolId} : r.get? s = some sym → Answers r sym (.ok (s, r))
  | added (h : r.size < maxSymbols) : r.Fresh sym →
      Answers r sym (.ok (⟨r.size, h⟩, ⟨r.symbols ++ [sym]⟩))
  | clash : r.Clashes sym → Answers r sym (.error (.duplicateSymbol sym.name))
  | full : r.Fresh sym → r.size = maxSymbols → Answers r sym (.error .tooManySymbols)

theorem Sound.answers_register (h : r.Sound) (name : String) (kind : SymbolKind)
    (htype : ∀ type, kind = .terminal type → r.byType? type = none) :
    Answers r ⟨name, kind⟩ (r.register name kind) := by
  unfold register
  split
  · next s hs =>
    obtain ⟨kind', hget⟩ := get?_of_byName? hs
    rw [hget]
    split_ifs with hkind
    · obtain rfl := Option.some.inj hkind
      exact .found hget
    · have hne : kind' ≠ kind := fun he => hkind (congrArg some he)
      exact .clash ⟨⟨name, kind'⟩, List.mem_of_getElem? hget, Or.inl ⟨rfl, hne⟩⟩
  · next hname =>
    split_ifs with hsize
    · exact .added hsize ⟨hname, htype⟩
    · exact .full ⟨hname, htype⟩ (Nat.le_antisymm h.size_le (Nat.not_lt.mp hsize))

theorem Sound.answers_terminalNamed (h : r.Sound) (type : TokenType) (name : String) :
    Answers r ⟨name, .terminal type⟩ (r.terminalNamed type name) := by
  unfold terminalNamed
  split
  · next s hs =>
    obtain ⟨name', hget⟩ := get?_of_byType? hs
    have hname : r.name s = name' := by rw [Registry.name, hget, Option.map_some, Option.getD_some]
    rw [hname]
    split_ifs with he
    · subst he
      exact .found hget
    · exact .clash ⟨⟨name', .terminal type⟩, List.mem_of_getElem? hget, Or.inr ⟨he, rfl, rfl⟩⟩
  · next htype =>
    refine h.answers_register name (.terminal type) fun type' he => ?_
    cases he
    exact htype

inductive Request where
  | terminal (type : TokenType)
  | terminalNamed (type : TokenType) (name : String)
  | nonterminal (name : String)

namespace Request

/-- The symbol that is asked for. -/
def symbol : Request → Symbol
  | terminal type => ⟨type.defaultName, .terminal type⟩
  | terminalNamed type name => ⟨name, .terminal type⟩
  | nonterminal name => ⟨name, .nonterminal⟩

def perform (r : Registry) : Request → Except ConfigError (SymbolId × Registry)
  | terminal type => r.terminal type
  | terminalNamed type name => r.terminalNamed type name
  | nonterminal name => r.nonterminal name

/-- The registry behind a request; the same if the request fails. -/
def after (r : Registry) (q : Request) : Registry :=
  match q.perform r with
  | .ok (_, r') => r'
  | .error _ => r

def run (qs : List Request) (r : Registry) : Registry := qs.foldl after r

theorem answers_perform (h : r.Sound) (q : Request) : Answers r q.symbol (q.perform r) := by
  cases q with
  | terminal type => exact h.answers_terminalNamed type _
  | terminalNamed type name => exact h.answers_terminalNamed type name
  | nonterminal name => exact h.answers_register name .nonterminal nofun

theorem built_after (h : r.Built) (q : Request) : (q.after r).Built := by
  unfold after
  split
  · next hok =>
    cases q with
    | terminal type => exact .terminal h hok
    | terminalNamed type name => exact .terminalNamed h hok
    | nonterminal name => exact .nonterminal h hok
  · exact h

theorem built_run (h : r.Built) (qs : List Request) : (run qs r).Built := by
  induction qs generalizing r with
  | nil => exact h
  | cons q qs ih => exact ih (built_after h q)

/-- A request appends its symbol or changes nothing. -/
theorem symbols_of_perform (h : r.Sound) {q : Request} {s : SymbolId}
    (hok : q.perform r = .ok (s, r')) : r'.get? s = some q.symbol ∧
      (r' = r ∨ s.val = r.size ∧ r'.symbols = r.symbols ++ [q.symbol]) := by
  have hanswers := answers_perform h q
  rw [hok] at hanswers
  cases hanswers with
  | found hs => exact ⟨hs, Or.inl rfl⟩
  | added => exact ⟨by simp [get?, size], Or.inr ⟨rfl, rfl⟩⟩

/-- Which requests fail, and why. -/
theorem perform_error_iff (h : r.Built) (q : Request) (e : ConfigError) :
    q.perform r = .error e ↔ (e = .duplicateSymbol q.symbol.name ∧ r.Clashes q.symbol) ∨
      (e = .tooManySymbols ∧ ¬ r.Clashes q.symbol ∧ q.symbol ∉ r.symbols ∧
        r.size = maxSymbols) := by
  have hanswers := answers_perform h.sound q
  generalize q.perform r = answer at hanswers
  cases hanswers with
  | found hs =>
    have hmem := List.mem_of_getElem? hs
    have hno := h.not_clashes hmem
    simp [hno, hmem]
  | added hsize hfresh =>
    have hno := (h.sound.not_clashes_of_fresh hfresh).1
    simp [hno, Nat.ne_of_lt hsize]
  | clash hclash => simp [hclash, eq_comm]
  | full hfresh hsize =>
    obtain ⟨hno, hnew⟩ := h.sound.not_clashes_of_fresh hfresh
    simp [hno, hnew, hsize, eq_comm]

end Request

end CanonicalLR.Registry
