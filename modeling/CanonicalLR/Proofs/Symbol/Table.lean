import CanonicalLR.Proofs.Symbol.IndexMap
import CanonicalLR.Proofs.Symbol.Requests
import CanonicalLR.Symbol.Table

/-! Requests for symbols to a table of two maps. Every call leaves the maps in step: a type leads to
the number under which the names have the terminal of that type. So the table answers as the
registry of its symbols does, and no number is ever out of range. -/

namespace CanonicalLR.SymbolTable

open Registry (Request)

variable {t t' : SymbolTable} {r r' : Registry} {s : SymbolId} {sym : Symbol} {name : String}
  {kind : SymbolKind}

/-! Tables and registries. -/

/-- The names have the symbols of the registry, each under its own name, and the types lead where the
registry finds a terminal. -/
structure Represents (t : SymbolTable) (r : Registry) : Prop where
  names : t.names.entries = r.symbols.map fun sym => (sym.name, sym)
  types : ∀ type, t.types.get? type = r.byType? type

namespace Represents

variable (h : t.Represents r)
include h

theorem size_eq : t.size = r.size := by
  rw [size, IndexMap.size, h.names, List.length_map, Registry.size]

theorem get?_eq (s : SymbolId) : t.get? s = r.get? s := by
  rw [get?, IndexMap.valueAt?, h.names, List.getElem?_map, Option.map_map, Registry.get?]
  cases r.symbols[s.val]? <;> rfl

theorem indexOf?_eq (name : String) :
    t.names.indexOf? name = r.symbols.findIdx? (·.name == name) := by
  rw [IndexMap.indexOf?, h.names, List.findIdx?_map]
  rfl

theorem full?_eq_some (hs : r.get? s = some sym) : t.names.full? sym.name = some (s.val, sym) := by
  rw [IndexMap.full?_eq_some, h.names, List.getElem?_map, show r.symbols[s.val]? = some sym from hs,
    Option.map_some]

variable (hsize : r.size ≤ maxSymbols)
include hsize

theorem full?_eq_none (hname : r.byName? name = none) : t.names.full? name = none := by
  have hindex : t.names.indexOf? name = none := by
    rw [h.indexOf?_eq, List.findIdx?_eq_none_iff]
    exact Registry.findIdx?_bind_eq_none hsize hname
  rw [IndexMap.full?, hindex, Option.bind_none]

theorem byName_eq (name : String) : t.byName name = some (r.byName? name) := by
  rw [byName, h.indexOf?_eq, Registry.byName?]
  cases hi : r.symbols.findIdx? (·.name == name) with
  | none => rfl
  | some i =>
    have hlt : i < maxSymbols :=
      Nat.lt_of_lt_of_le (List.findIdx?_eq_some_iff_getElem.mp hi).1 hsize
    simp [SymbolId.ofNat?, hlt]

theorem toList?_eq : t.toList? = some r.toList := by
  have hfrom : ∀ (symbols : List Symbol) (k : Nat), k + symbols.length ≤ maxSymbols →
      (symbols.zipIdx k).mapM (fun entry => (SymbolId.ofNat? entry.2).map fun s => (s, entry.1)) =
        some ((SymbolId.all.drop k).zip symbols) := by
    intro symbols
    induction symbols with
    | nil => simp
    | cons sym symbols ih =>
      intro k hk
      rw [List.length_cons] at hk
      have hlt : k < maxSymbols := by omega
      have hdrop : SymbolId.all.drop k = ⟨k, hlt⟩ :: SymbolId.all.drop (k + 1) := by
        rw [List.drop_eq_getElem_cons (by simpa [SymbolId.all] using hlt)]
        simp [SymbolId.all]
      rw [List.zipIdx_cons, List.mapM_cons, ih (k + 1) (by omega), hdrop]
      simp [SymbolId.ofNat?, hlt]
  have hvalues : t.names.values = r.symbols := by
    rw [IndexMap.values, h.names, List.map_map]
    exact List.map_id _
  rw [toList?, hvalues, hfrom r.symbols 0 (by rwa [Nat.zero_add]), List.drop_zero, Registry.toList]

end Represents

/-! One symbol more. -/

theorem byType?_append (hsize : r.size < maxSymbols) (hfresh : r.Fresh sym) (type : TokenType) :
    Registry.byType? ⟨r.symbols ++ [sym]⟩ type =
      if sym.kind = .terminal type then some ⟨r.size, hsize⟩ else r.byType? type := by
  rw [Registry.byType?, List.findIdx?_append]
  split_ifs with hkind
  · have hnone : r.symbols.findIdx? (·.kind == .terminal type) = none := by
      rw [List.findIdx?_eq_none_iff]
      intro other hother
      simpa using (hfresh.apart (Nat.le_of_lt hsize) hother).2 type hkind
    have hlast : [sym].findIdx? (·.kind == .terminal type) = some 0 := by simp [hkind]
    rw [hnone, hlast, Option.none_or, Option.map_some, Option.bind_some, Nat.zero_add]
    exact dif_pos hsize
  · simp [hkind, Registry.byType?]

/-- A fresh symbol goes behind the others in both maps. -/
theorem Represents.insert (h : t.Represents r) (name : String) (kind : SymbolKind)
    (hsize : r.size < maxSymbols) (hfresh : r.Fresh ⟨name, kind⟩) :
    ∃ t', t.insert name kind = some (⟨r.size, hsize⟩, t') ∧
      t'.names.entries = t.names.entries ++ [(name, ⟨name, kind⟩)] ∧
      t'.Represents ⟨r.symbols ++ [⟨name, kind⟩]⟩ := by
  have hnumber : SymbolId.ofNat? t.names.size = some ⟨r.size, hsize⟩ := by
    rw [show t.names.size = r.size from h.size_eq, SymbolId.ofNat?, dif_pos hsize]
  have hkey : name ∉ t.names.entries.map (·.1) := by
    rw [h.names, List.map_map]
    intro hmem
    obtain ⟨other, hother, he⟩ := List.mem_map.mp hmem
    exact (hfresh.apart (Nat.le_of_lt hsize) hother).1 he
  have hentries := IndexMap.insertEntry_of_notMem (⟨name, kind⟩ : Symbol) hkey
  refine ⟨_, by simp only [SymbolTable.insert, hnumber]; rfl, hentries, ?_, fun type => ?_⟩
  · exact hentries.trans (by rw [h.names, List.map_append, List.map_singleton])
  · rw [byType?_append hsize hfresh, ← h.types]
    cases kind with
    | nonterminal => simp
    | terminal type' => simp only [IndexMap.get?_insert, SymbolKind.terminal.injEq, eq_comm]

/-! Calls. -/

/-- What a call for a symbol comes to where the registry gives an answer: it ends with the same
answer, and the table is as it was or has the symbol behind its others. -/
inductive Mirrors (t : SymbolTable) (sym : Symbol) :
    Except ConfigError (SymbolId × Registry) → Outcome → Prop where
  | found {s : SymbolId} {r : Registry} : t.Represents r → Mirrors t sym (.ok (s, r)) (some (.ok s, t))
  | entered {s : SymbolId} {r : Registry} {t' : SymbolTable} : t'.Represents r → s.val = t.size →
      t'.names.entries = t.names.entries ++ [(sym.name, sym)] →
      Mirrors t sym (.ok (s, r)) (some (.ok s, t'))
  | failed {e : ConfigError} : Mirrors t sym (.error e) (some (.error e, t))

theorem Represents.register (h : t.Represents r) (hr : r.Sound) (name : String) (kind : SymbolKind)
    (htype : ∀ type, kind = .terminal type → r.byType? type = none) :
    Mirrors t ⟨name, kind⟩ (r.register name kind) (t.register name kind) := by
  rw [SymbolTable.register, Registry.register]
  cases hname : r.byName? name with
  | some s =>
    obtain ⟨kind', hs⟩ := Registry.get?_of_byName? hname
    have hnumber : SymbolId.ofNat? s.val = some s := dif_pos s.isLt
    rw [h.full?_eq_some hs]
    simp only [hs, Option.map_some, Option.some.injEq, hnumber]
    split_ifs with hkind
    · exact .found h
    · exact .failed
  | none =>
    rw [h.full?_eq_none hr.size_le hname]
    by_cases hsize : r.size < maxSymbols
    · obtain ⟨t', hinsert, hentries, h'⟩ := h.insert name kind hsize ⟨hname, htype⟩
      have hroom : ¬ maxSymbols ≤ t.names.size := by
        rw [show t.names.size = r.size from h.size_eq]
        exact Nat.not_le.mpr hsize
      simp only [dif_pos hsize, if_neg hroom, hinsert, Option.map_some]
      exact .entered h' h.size_eq.symm hentries
    · have hfull : maxSymbols ≤ t.names.size := by
        rw [show t.names.size = r.size from h.size_eq]
        exact Nat.not_lt.mp hsize
      simp only [dif_neg hsize, if_pos hfull]
      exact .failed

theorem Represents.terminalNamed (h : t.Represents r) (hr : r.Sound) (type : TokenType)
    (name : String) :
    Mirrors t ⟨name, .terminal type⟩ (r.terminalNamed type name) (t.terminalNamed type name) := by
  rw [SymbolTable.terminalNamed, Registry.terminalNamed, h.types]
  cases htype : r.byType? type with
  | some s =>
    obtain ⟨name', hs⟩ := Registry.get?_of_byType? htype
    have hname : r.name s = name' := by rw [Registry.name, hs, Option.map_some, Option.getD_some]
    simp only [h.get?_eq, hs, hname, Option.map_some]
    split_ifs
    · exact .found h
    · exact .failed
  | none =>
    refine h.register hr name (.terminal type) fun type' he => ?_
    cases he
    exact htype

def perform (t : SymbolTable) : Request → Outcome
  | .terminal type => t.terminal type
  | .terminalNamed type name => t.terminalNamed type name
  | .nonterminal name => t.nonterminal name

theorem Represents.perform (h : t.Represents r) (hr : r.Sound) (q : Request) :
    Mirrors t q.symbol (q.perform r) (t.perform q) := by
  cases q with
  | terminal type => exact h.terminalNamed hr type _
  | terminalNamed type name => exact h.terminalNamed hr type name
  | nonterminal name => exact h.register hr name .nonterminal nofun

theorem Represents.after (h : t.Represents r) (hr : r.Sound) (q : Request) :
    ∃ answer t', t.perform q = some (answer, t') ∧ t'.Represents (q.after r) := by
  have hmirrors := h.perform hr q
  rw [Request.after]
  generalize q.perform r = answered, t.perform q = outcome at hmirrors
  cases hmirrors with
  | found h' => exact ⟨_, _, rfl, h'⟩
  | entered h' => exact ⟨_, _, rfl, h'⟩
  | failed => exact ⟨_, _, rfl, h⟩

/-! Runs. -/

theorem new_represents : ∃ t, new = some t ∧ t.Represents .new := by
  have hempty : Represents ⟨.empty, .empty⟩ ⟨[]⟩ := ⟨rfl, fun _ => rfl⟩
  obtain ⟨t, hfinish, -, h⟩ := hempty.insert TokenKind.finish.name
    (.terminal TokenKind.finish.type) (by decide) ⟨rfl, fun _ _ => rfl⟩
  obtain ⟨t', hstart, -, h'⟩ := h.insert Registry.startName .nonterminal (by decide)
    ⟨by decide, nofun⟩
  refine ⟨t', ?_, h'⟩
  simp only [new, hfinish, hstart, Option.bind_eq_bind, Option.bind_some]

/-- The table behind all the calls, failing ones included. -/
def run (qs : List Request) : Option SymbolTable := do
  let t ← new
  qs.foldlM (fun t q => (t.perform q).map (·.2)) t

theorem run_represents (qs : List Request) :
    ∃ t, run qs = some t ∧ t.Represents (Request.run qs .new) := by
  have hfrom : ∀ (qs : List Request) {t : SymbolTable} {r : Registry}, t.Represents r → r.Built →
      ∃ t', qs.foldlM (fun t q => (t.perform q).map (·.2)) t = some t' ∧
        t'.Represents (Request.run qs r) := by
    intro qs
    induction qs with
    | nil => exact fun h _ => ⟨_, rfl, h⟩
    | cons q qs ih =>
      intro t r h hr
      obtain ⟨answer, t', hcall, h'⟩ := h.after hr.sound q
      rw [List.foldlM_cons, hcall]
      exact ih h' (Request.built_after hr q)
  obtain ⟨t, hnew, h⟩ := new_represents
  rw [run, hnew]
  exact hfrom qs h .new

/-! What the maps say of each other. -/

/-- The two maps in step. -/
structure InStep (t : SymbolTable) : Prop where
  two_le : 2 ≤ t.size
  size_le : t.size ≤ maxSymbols
  numbered : ∃ listed, t.toList? = some listed ∧ listed.map (·.1.val) = List.range t.size
  issued : ∀ s, (∃ sym, t.get? s = some sym) ↔ s.val < t.size
  finish : t.get? .finish = some ⟨"end", .terminal 261⟩
  start : t.get? .start = some ⟨"$start", .nonterminal⟩
  names : ∀ s s' sym sym', t.get? s = some sym → t.get? s' = some sym' → sym.name = sym'.name →
    s = s'
  types : ∀ s s' sym sym', t.get? s = some sym → t.get? s' = some sym' → sym.isTerminal = true →
    sym.kind = sym'.kind → s = s'
  byName : ∀ name, ∃ found, t.byName name = some found ∧
    ∀ s, found = some s ↔ ∃ kind, t.get? s = some ⟨name, kind⟩
  byType : ∀ type s, t.byType? type = some s ↔ ∃ name, t.get? s = some ⟨name, .terminal type⟩

theorem Represents.inStep (h : t.Represents r) (hr : r.Built) : t.InStep := by
  have hconsistent := hr.consistent
  have hbyName : ∀ name, t.byName name = some (r.byName? name) :=
    h.byName_eq hconsistent.size_le
  have hbyType : ∀ type s, t.byType? type = some s ↔
      ∃ name, t.get? s = some ⟨name, .terminal type⟩ := fun type s => by
    rw [byType?, h.types, h.get?_eq, hconsistent.byType]
  constructor
  · rw [h.size_eq]
    exact hconsistent.two_le
  · rw [h.size_eq]
    exact hconsistent.size_le
  · exact ⟨_, h.toList?_eq hconsistent.size_le, by rw [h.size_eq, hconsistent.numbered]⟩
  · intro s
    rw [h.get?_eq, h.size_eq, hconsistent.issued]
  · rw [h.get?_eq, hconsistent.finish]
  · rw [h.get?_eq, hconsistent.start]
  · intro s s' sym sym' hs hs' hname
    have hfound := hr.distinct.byName?_eq ((h.get?_eq s).symm.trans hs)
    rw [hname, hr.distinct.byName?_eq ((h.get?_eq s').symm.trans hs')] at hfound
    exact (Option.some.inj hfound).symm
  · intro s s' ⟨name, kind⟩ ⟨name', kind'⟩ hs hs' hterminal hkind
    obtain rfl : kind = kind' := hkind
    cases kind with
    | nonterminal => cases hterminal
    | terminal type =>
      have hfound := (hbyType type s).mpr ⟨name, hs⟩
      exact Option.some.inj (hfound.symm.trans ((hbyType type s').mpr ⟨name', hs'⟩))
  · intro name
    exact ⟨_, hbyName name, fun s => by rw [hconsistent.byName, h.get?_eq]⟩
  · exact hbyType

/-- A symbol has the name and is of another kind or type, or has the type and another name. -/
def Clashes (t : SymbolTable) (sym : Symbol) : Prop :=
  ∃ s other, t.get? s = some other ∧ ((other.name = sym.name ∧ other.kind ≠ sym.kind) ∨
    (other.name ≠ sym.name ∧ other.kind = sym.kind ∧ sym.isTerminal = true))

theorem Represents.clashes_iff (h : t.Represents r) (hr : r.Sound) :
    t.Clashes sym ↔ r.Clashes sym := by
  constructor
  · rintro ⟨s, other, hs, hclash⟩
    exact ⟨other, List.mem_of_getElem? ((h.get?_eq s).symm.trans hs), hclash⟩
  · rintro ⟨other, hother, hclash⟩
    obtain ⟨s, hs⟩ := hr.exists_get? hother
    exact ⟨s, other, (h.get?_eq s).trans hs, hclash⟩

theorem Represents.exists_get?_iff (h : t.Represents r) (hr : r.Sound) :
    (∃ s, t.get? s = some sym) ↔ sym ∈ r.symbols := by
  constructor
  · rintro ⟨s, hs⟩
    exact List.mem_of_getElem? ((h.get?_eq s).symm.trans hs)
  · intro hsym
    obtain ⟨s, hs⟩ := hr.exists_get? hsym
    exact ⟨s, (h.get?_eq s).trans hs⟩

theorem get?_of_entries {extra : List (String × Symbol)}
    (h : t'.names.entries = t.names.entries ++ extra) (hs : t.get? s = some sym) :
    t'.get? s = some sym := by
  obtain ⟨entry, hentry, rfl⟩ := Option.map_eq_some_iff.mp hs
  have hlt := (List.getElem?_eq_some_iff.mp hentry).1
  rw [get?, IndexMap.valueAt?, h, List.getElem?_append_left hlt, hentry, Option.map_some]

/-- Whatever symbols were asked for, with an error or without, the calls came to an end and the maps
are in step. The next call leaves the symbols that are there as they are; it answers with a symbol as
it was asked for, new or not, or it fails, says why and changes nothing. -/
theorem run_in_step (qs : List Request) : ∃ t, run qs = some t ∧ t.InStep ∧ ∀ q : Request,
    ∃ answer t', t.perform q = some (answer, t') ∧
      (∀ s sym, t.get? s = some sym → t'.get? s = some sym) ∧
      (∀ s, answer = .ok s → t'.get? s = some q.symbol ∧ (t' = t ∨ s.val = t.size ∧
        t'.names.entries = t.names.entries ++ [(q.symbol.name, q.symbol)])) ∧
      ∀ e, (answer = .error e → t' = t) ∧ (answer = .error e ↔
        (e = .duplicateSymbol q.symbol.name ∧ t.Clashes q.symbol) ∨
        (e = .tooManySymbols ∧ ¬ t.Clashes q.symbol ∧ (¬ ∃ s, t.get? s = some q.symbol) ∧
          t.size = 64)) := by
  obtain ⟨t, hrun, h⟩ := run_represents qs
  have hbuilt := Request.built_run .new qs
  generalize Request.run qs .new = r at h hbuilt
  refine ⟨t, hrun, h.inStep hbuilt, fun q => ?_⟩
  have hmirrors := h.perform hbuilt.sound q
  have hgiven : ∀ s r', q.perform r = .ok (s, r') → r'.get? s = some q.symbol :=
    fun s r' hok => (Request.symbols_of_perform hbuilt.sound hok).1
  have hfails := Request.perform_error_iff hbuilt q
  simp only [← h.clashes_iff hbuilt.sound, ← h.exists_get?_iff hbuilt.sound, ← h.size_eq] at hfails
  generalize q.perform r = answered, t.perform q = outcome at hmirrors hgiven hfails
  cases hmirrors with
  | @found s r' h' =>
    refine ⟨_, t, rfl, fun _ _ hs => hs, ?_, fun e => ⟨nofun, ?_⟩⟩
    · rintro _ ⟨⟩
      exact ⟨(h'.get?_eq s).trans (hgiven s r' rfl), Or.inl rfl⟩
    · rw [← hfails e]
      exact ⟨nofun, nofun⟩
  | @entered s r' t' h' hnumber hentries =>
    refine ⟨_, t', rfl, fun _ _ hs => get?_of_entries hentries hs, ?_, fun e => ⟨nofun, ?_⟩⟩
    · rintro _ ⟨⟩
      exact ⟨(h'.get?_eq s).trans (hgiven s r' rfl), Or.inr ⟨hnumber, hentries⟩⟩
    · rw [← hfails e]
      exact ⟨nofun, nofun⟩
  | @failed e' =>
    refine ⟨_, t, rfl, fun _ _ hs => hs, nofun, fun e => ⟨fun _ => rfl, ?_⟩⟩
    rw [← hfails e, Except.error.injEq, Except.error.injEq]

/-- The second call fails, since its name is that of the first, and its type stays free. -/
example : ((run [.terminal 120, .terminalNamed 121 "x", .nonterminal "S"]).map fun t =>
    (t.byType? 120, t.byType? 121, t.size)) = some (some 2, none, 4) := by decide

end CanonicalLR.SymbolTable
