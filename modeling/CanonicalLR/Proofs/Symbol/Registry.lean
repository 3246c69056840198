import CanonicalLR.Symbol.Registry
import Mathlib.Data.List.Induction
import Mathlib.Tactic.Common

/-! Registries made by registering symbols. The first two symbols never change, and a terminal is
found by its type. -/

namespace CanonicalLR.Registry

inductive Built : Registry → Prop where
  | new : Built .new
  | terminal {r r' : Registry} {type : TokenType} {s : SymbolId} :
      Built r → r.terminal type = .ok (s, r') → Built r'
  | terminalNamed {r r' : Registry} {type : TokenType} {name : String} {s : SymbolId} :
      Built r → r.terminalNamed type name = .ok (s, r') → Built r'
  | nonterminal {r r' : Registry} {name : String} {s : SymbolId} :
      Built r → r.nonterminal name = .ok (s, r') → Built r'

def Registered (r : Registry) (s : SymbolId) : Prop := s.val < r.size

instance (r : Registry) (s : SymbolId) : Decidable (r.Registered s) :=
  inferInstanceAs (Decidable (s.val < r.size))

/-- Neither the name nor the terminal type belongs to a symbol yet. -/
def Fresh (r : Registry) (sym : Symbol) : Prop :=
  r.byName? sym.name = none ∧ ∀ type, sym.kind = .terminal type → r.byType? type = none

theorem register_cases {r r' : Registry} {name : String} {kind : SymbolKind} {s : SymbolId}
    (h : r.register name kind = .ok (s, r'))
    (hkind : ∀ type, kind = .terminal type → r.byType? type = none) :
    r' = r ∨ ∃ sym, r.size < maxSymbols ∧ r.Fresh sym ∧ r' = ⟨r.symbols ++ [sym]⟩ := by
  unfold register at h
  split at h
  · split at h
    · simp only [Except.ok.injEq, Prod.mk.injEq] at h
      exact Or.inl h.2.symm
    · cases h
  · rename_i hname
    split at h
    · rename_i hsize
      simp only [Except.ok.injEq, Prod.mk.injEq] at h
      exact Or.inr ⟨_, hsize, ⟨hname, hkind⟩, h.2.symm⟩
    · cases h

theorem terminalNamed_cases {r r' : Registry} {type : TokenType} {name : String} {s : SymbolId}
    (h : r.terminalNamed type name = .ok (s, r')) :
    r' = r ∨ ∃ sym, r.size < maxSymbols ∧ r.Fresh sym ∧ r' = ⟨r.symbols ++ [sym]⟩ := by
  unfold terminalNamed at h
  split at h
  · split at h
    · simp only [Except.ok.injEq, Prod.mk.injEq] at h
      exact Or.inl h.2.symm
    · cases h
  · rename_i htype
    refine register_cases h fun type' he => ?_
    cases he
    exact htype

/-- What holds at first and of every fresh symbol that is added holds of every registry. -/
theorem Built.induct {p : Registry → Prop} (new : p .new)
    (append : ∀ (r : Registry) (sym : Symbol), p r → r.size < maxSymbols → r.Fresh sym →
      p ⟨r.symbols ++ [sym]⟩) {r : Registry} (h : r.Built) : p r := by
  have grown : ∀ {r r' : Registry}, p r → (r' = r ∨ ∃ sym, r.size < maxSymbols ∧ r.Fresh sym ∧
      r' = ⟨r.symbols ++ [sym]⟩) → p r' := by
    rintro r r' hr (rfl | ⟨sym, hsize, hfresh, rfl⟩)
    · exact hr
    · exact append r sym hr hsize hfresh
  induction h with
  | new => exact new
  | terminal _ h ih => exact grown ih (terminalNamed_cases h)
  | terminalNamed _ h ih => exact grown ih (terminalNamed_cases h)
  | nonterminal _ h ih => exact grown ih (register_cases h nofun)

structure Sound (r : Registry) : Prop where
  size_le : r.size ≤ maxSymbols
  finish : r.symbols[0]? = some ⟨TokenKind.finish.name, .terminal TokenKind.finish.type⟩
  start : r.symbols[1]? = some ⟨startName, .nonterminal⟩

theorem Sound.append {r : Registry} (h : r.Sound) (hsize : r.size < maxSymbols) (sym : Symbol) :
    Sound ⟨r.symbols ++ [sym]⟩ where
  size_le := by
    simp only [size, List.length_append, List.length_singleton] at hsize ⊢
    omega
  finish := by
    rw [List.getElem?_append_left (List.getElem?_eq_some_iff.mp h.finish).1]
    exact h.finish
  start := by
    rw [List.getElem?_append_left (List.getElem?_eq_some_iff.mp h.start).1]
    exact h.start

theorem Built.sound {r : Registry} (h : r.Built) : r.Sound :=
  h.induct ⟨by decide, rfl, rfl⟩ fun _ sym hr hsize _ => hr.append hsize sym

theorem get?_of_byType? {r : Registry} {type : TokenType} {s : SymbolId}
    (h : r.byType? type = some s) : ∃ name, r.get? s = some ⟨name, .terminal type⟩ := by
  simp only [byType?, Option.bind_eq_some_iff] at h
  obtain ⟨i, hi, hs⟩ := h
  obtain ⟨hlt, hkind, -⟩ := List.findIdx?_eq_some_iff_getElem.mp hi
  simp only [SymbolId.ofNat?] at hs
  split at hs
  · cases hs
    refine ⟨r.symbols[i].name, ?_⟩
    rw [get?, List.getElem?_eq_getElem hlt]
    have he : r.symbols[i].kind = .terminal type := by simpa using hkind
    rw [← he]
  · cases hs

theorem isTerminal_of_byType? {r : Registry} {type : TokenType} {s : SymbolId}
    (h : r.byType? type = some s) : r.isTerminal s = true := by
  obtain ⟨name, hs⟩ := get?_of_byType? h
  simp [isTerminal, hs, Symbol.isTerminal]

theorem Sound.isTerminal_finish {r : Registry} (h : r.Sound) : r.isTerminal .finish = true := by
  have hs : r.get? .finish = _ := h.finish
  simp [isTerminal, hs, Symbol.isTerminal]

theorem Sound.isTerminal_start {r : Registry} (h : r.Sound) : r.isTerminal .start = false := by
  have hs : r.get? .start = _ := h.start
  simp [isTerminal, hs, Symbol.isTerminal]

theorem Sound.byType?_eq_finish {r : Registry} (h : r.Sound) {type : TokenType} :
    r.byType? type = some .finish ↔ type = TokenKind.finish.type := by
  constructor
  · intro ht
    obtain ⟨name, hs⟩ := get?_of_byType? ht
    have hf : r.get? .finish = _ := h.finish
    rw [hf] at hs
    simp only [Option.some.injEq, Symbol.mk.injEq, SymbolKind.terminal.injEq] at hs
    exact hs.2.symm
  · rintro rfl
    obtain ⟨rest, hrest⟩ : ∃ rest, r.symbols =
        ⟨TokenKind.finish.name, .terminal TokenKind.finish.type⟩ :: rest := by
      have hf := h.finish
      cases hr : r.symbols with
      | nil => simp [hr] at hf
      | cons sym rest =>
        simp only [hr, List.getElem?_cons_zero, Option.some.injEq] at hf
        exact ⟨rest, by rw [hf]⟩
    simp only [byType?, hrest, List.findIdx?_cons, beq_self_eq_true, if_true]
    rfl

theorem Sound.byType?_of_isEnd {r : Registry} (h : r.Sound) {t : Token} (ht : t.isEnd = true) :
    r.byType? t.type = some .finish :=
  h.byType?_eq_finish.mpr (by simpa [Token.isEnd] using ht)

/-! Names and terminal types tell symbols apart. -/

theorem registered_of_get? {r : Registry} {s : SymbolId} {sym : Symbol} (h : r.get? s = some sym) :
    r.Registered s :=
  (List.getElem?_eq_some_iff.mp h).1

theorem findIdx?_bind_eq_none {r : Registry} (h : r.size ≤ maxSymbols) {p : Symbol → Bool}
    (hnone : (r.symbols.findIdx? p).bind SymbolId.ofNat? = none) (sym : Symbol)
    (hmem : sym ∈ r.symbols) : p sym = false := by
  cases hi : r.symbols.findIdx? p with
  | none => exact List.findIdx?_eq_none_iff.mp hi sym hmem
  | some i =>
    obtain ⟨hlt, -⟩ := List.findIdx?_eq_some_iff_getElem.mp hi
    have hsize : i < maxSymbols := Nat.lt_of_lt_of_le hlt h
    simp [hi, SymbolId.ofNat?, hsize] at hnone

theorem Fresh.apart {r : Registry} {sym other : Symbol} (h : r.Fresh sym)
    (hsize : r.size ≤ maxSymbols) (hother : other ∈ r.symbols) : other.name ≠ sym.name ∧
      ∀ type, sym.kind = .terminal type → other.kind ≠ .terminal type :=
  ⟨by simpa using findIdx?_bind_eq_none hsize h.1 other hother, fun type ht => by
    simpa using findIdx?_bind_eq_none hsize (h.2 type ht) other hother⟩

theorem findIdx?_bind_eq_some {r : Registry} {p : Symbol → Bool} {s : SymbolId} {sym : Symbol}
    (hs : r.get? s = some sym) (hp : p sym = true)
    (hfirst : ∀ other ∈ r.symbols.take s.val, p other = false) :
    (r.symbols.findIdx? p).bind SymbolId.ofNat? = some s := by
  obtain ⟨hlt, hget⟩ := List.getElem?_eq_some_iff.mp hs
  have hi : r.symbols.findIdx? p = some s.val := by
    refine List.findIdx?_eq_some_iff_getElem.mpr ⟨hlt, by rw [hget]; exact hp, fun j hj => ?_⟩
    have hmem : r.symbols[j] ∈ r.symbols.take s.val :=
      List.mem_take_iff_getElem.mpr ⟨j, by omega, rfl⟩
    simp [hfirst _ hmem]
  simp [hi, SymbolId.ofNat?]

def Distinct (r : Registry) : Prop :=
  r.symbols.Pairwise fun a b =>
    a.name ≠ b.name ∧ ∀ type, b.kind = .terminal type → a.kind ≠ .terminal type

theorem distinct_new : new.Distinct := by
  simp [Distinct, new, startName, TokenKind.name]

theorem Distinct.append {r : Registry} (h : r.Distinct) (hsound : r.Sound) {sym : Symbol}
    (hfresh : r.Fresh sym) : Distinct ⟨r.symbols ++ [sym]⟩ := by
  refine List.pairwise_append.mpr ⟨h, List.pairwise_singleton _ _, fun other hother b hb => ?_⟩
  obtain rfl := List.mem_singleton.mp hb
  exact hfresh.apart hsound.size_le hother

theorem Built.distinct {r : Registry} (h : r.Built) : r.Distinct :=
  (h.induct (p := fun r => r.Sound ∧ r.Distinct) ⟨Built.new.sound, distinct_new⟩
    fun _ sym hr hsize hfresh => ⟨hr.1.append hsize sym, hr.2.append hr.1 hfresh⟩).2

theorem Distinct.apart {r : Registry} (h : r.Distinct) {s : SymbolId} {sym other : Symbol}
    (hs : r.get? s = some sym) (hother : other ∈ r.symbols.take s.val) :
    other.name ≠ sym.name ∧ ∀ type, sym.kind = .terminal type → other.kind ≠ .terminal type := by
  obtain ⟨hlt, hget⟩ := List.getElem?_eq_some_iff.mp hs
  obtain ⟨j, hj, rfl⟩ := List.mem_take_iff_getElem.mp hother
  rw [← hget]
  exact List.pairwise_iff_getElem.mp h j s.val _ hlt (by omega)

theorem Distinct.byName?_eq {r : Registry} (h : r.Distinct) {s : SymbolId} {sym : Symbol}
    (hs : r.get? s = some sym) : r.byName? sym.name = some s :=
  findIdx?_bind_eq_some hs (by simp) fun _ hother => by simpa using (h.apart hs hother).1

theorem Distinct.byType?_eq {r : Registry} (h : r.Distinct) {s : SymbolId} {name : String}
    {type : TokenType} (hs : r.get? s = some ⟨name, .terminal type⟩) : r.byType? type = some s :=
  findIdx?_bind_eq_some hs (by simp) fun _ hother => by simpa using (h.apart hs hother).2 type rfl

theorem Distinct.eq_of_name {r : Registry} (h : r.Distinct) {s t : SymbolId}
    (hs : r.Registered s) (ht : r.Registered t) (hname : r.name s = r.name t) : s = t := by
  have hget : r.get? s = some r.symbols[s.val] := List.getElem?_eq_getElem hs
  have hget' : r.get? t = some r.symbols[t.val] := List.getElem?_eq_getElem ht
  simp only [name, hget, hget', Option.map_some, Option.getD_some] at hname
  exact Option.some.inj ((h.byName?_eq hget).symm.trans (hname ▸ h.byName?_eq hget'))

theorem Distinct.eq_of_map_name {r : Registry} (h : r.Distinct) {ids ids' : List SymbolId}
    (hids : ∀ s ∈ ids, r.Registered s) (hids' : ∀ s ∈ ids', r.Registered s)
    (hnames : ids.map r.name = ids'.map r.name) : ids = ids' := by
  induction ids generalizing ids' with
  | nil => exact (List.map_eq_nil_iff.mp hnames.symm).symm
  | cons s ids ih =>
    cases ids' with
    | nil => cases hnames
    | cons s' ids' =>
      rw [List.forall_mem_cons] at hids hids'
      obtain ⟨hname, hrest⟩ := List.cons.inj hnames
      rw [h.eq_of_name hids.1 hids'.1 hname, ih hids.2 hids'.2 hrest]

theorem byName?_eq_none {r : Registry} {name : String} (h : name ∉ r.symbols.map (·.name)) :
    r.byName? name = none := by
  have hnone : r.symbols.findIdx? (·.name == name) = none := by
    rw [List.findIdx?_eq_none_iff]
    intro sym hmem
    have hne : sym.name ≠ name := fun he => h (he ▸ List.mem_map_of_mem hmem)
    simpa using hne
  rw [byName?, hnone, Option.bind_none]

theorem byType?_eq_none {r : Registry} {type : TokenType} (h : type ∉ r.symbols.filterMap (·.type?)) :
    r.byType? type = none := by
  have hnone : r.symbols.findIdx? (·.kind == .terminal type) = none := by
    rw [List.findIdx?_eq_none_iff]
    intro sym hmem
    have hne : sym.kind ≠ .terminal type := fun he =>
      h (List.mem_filterMap.mpr ⟨sym, hmem, by simp [Symbol.type?, he]⟩)
    simpa using hne
  rw [byType?, hnone, Option.bind_none]

/-- Symbols with names and terminal types of their own can be registered one after the other. -/
theorem built_of_nodup {extra : List Symbol} (hlen : (new.symbols ++ extra).length ≤ maxSymbols)
    (hnames : ((new.symbols ++ extra).map (·.name)).Nodup)
    (htypes : ((new.symbols ++ extra).filterMap (·.type?)).Nodup) :
    Built ⟨new.symbols ++ extra⟩ := by
  induction extra using List.reverseRecOn with
  | nil => exact .new
  | append_singleton extra sym ih =>
    rw [← List.append_assoc] at hlen hnames htypes ⊢
    generalize hfront : new.symbols ++ extra = front at hlen hnames htypes ih ⊢
    rw [List.length_append, List.length_singleton] at hlen
    rw [List.map_append, List.nodup_append] at hnames
    rw [List.filterMap_append, List.nodup_append] at htypes
    have hbuilt : Built ⟨front⟩ := ih (by omega) hnames.1 htypes.1
    have hsize : size ⟨front⟩ < maxSymbols := hlen
    have hname : byName? ⟨front⟩ sym.name = none :=
      byName?_eq_none fun hmem => hnames.2.2 _ hmem _ (by simp) rfl
    obtain ⟨name, kind⟩ := sym
    have hregister : register ⟨front⟩ name kind =
        .ok (⟨size ⟨front⟩, hsize⟩, ⟨front ++ [⟨name, kind⟩]⟩) := by
      simp only [register, hname, dif_pos hsize]
    cases kind with
    | nonterminal => exact .nonterminal hbuilt hregister
    | terminal type =>
      have htype : byType? ⟨front⟩ type = none :=
        byType?_eq_none fun hmem => htypes.2.2 _ hmem _ (by simp [Symbol.type?]) rfl
      have hterminal : terminalNamed ⟨front⟩ type name = register ⟨front⟩ name (.terminal type) := by
        rw [terminalNamed, htype]
      exact .terminalNamed hbuilt (hterminal.trans hregister)

theorem get?_of_byName? {r : Registry} {name : String} {s : SymbolId}
    (h : r.byName? name = some s) : ∃ kind, r.get? s = some ⟨name, kind⟩ := by
  simp only [byName?, Option.bind_eq_some_iff, SymbolId.ofNat?] at h
  obtain ⟨i, hi, hs⟩ := h
  obtain ⟨hlt, hname, -⟩ := List.findIdx?_eq_some_iff_getElem.mp hi
  split at hs
  · cases hs
    refine ⟨r.symbols[i].kind, ?_⟩
    rw [get?, List.getElem?_eq_getElem hlt]
    have he : r.symbols[i].name = name := by simpa using hname
    rw [← he]
  · cases hs

theorem registered_of_byName? {r : Registry} {name : String} {s : SymbolId}
    (h : r.byName? name = some s) : r.Registered s := by
  obtain ⟨kind, hs⟩ := get?_of_byName? h
  exact registered_of_get? hs

theorem registered_of_isTerminal {r : Registry} {s : SymbolId} (h : r.isTerminal s = true) :
    r.Registered s := by
  cases hs : r.get? s with
  | none => simp [isTerminal, hs] at h
  | some sym => exact registered_of_get? hs

end CanonicalLR.Registry
