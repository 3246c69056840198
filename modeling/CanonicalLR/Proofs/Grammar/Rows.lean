import CanonicalLR.Grammar.Configure
import CanonicalLR.Proofs.Item.Holding

/-! Rows cell by cell. The cell of a symbol depends on the items of the set and on the shift over
that symbol alone, whatever happens in the other cells. -/

namespace CanonicalLR

def Row.cell (row : Row) (s : SymbolId) : Option Nat × Option Nat :=
  (row.actions.shift? s, row.actions.reduce? s)

namespace ItemSet

theorem mem_reduceRules (set : ItemSet) (a : Analysis) (s : SymbolId) (i : Nat) :
    i ∈ set.reduceRules a s ↔ ∃ d, (a.rhs i).length ≤ d ∧ set.Has i d (some s) := by
  simp only [reduceRules, List.mem_map, List.mem_filter, Bool.and_eq_true, Item.canReduce,
    decide_eq_true_eq]
  constructor
  · rintro ⟨it, ⟨hit, hlen, hs⟩, rfl⟩
    exact ⟨it.dot, hlen, it, hit, rfl, rfl, fun t ht => Option.some.inj ht ▸ hs⟩
  · rintro ⟨_, hlen, it, hit, rfl, rfl, hs⟩
    exact ⟨it, ⟨hit, hlen, hs s rfl⟩, rfl⟩

theorem contains_reduceSymbols (set : ItemSet) (a : Analysis) (s : SymbolId) :
    (set.reduceSymbols a).contains s = true ↔ set.reduceRules a s ≠ [] := by
  have hfold : ∀ (items : List Item) (found : SymbolSet),
      (items.foldl (fun found it => found.merge it.follow) found).contains s = true ↔
        found.contains s = true ∨ ∃ it ∈ items, it.follow.contains s = true := by
    intro items
    induction items with
    | nil => simp
    | cons it items ih => simp [ih, or_assoc]
  rw [reduceSymbols, hfold]
  simp [reduceRules, and_assoc]

end ItemSet

namespace Grammar

variable {g : Grammar} {a : Analysis}

/-- Work on a cell that looks at the set and at this cell alone. -/
structure Local (work : Row → SymbolId → Row × Option Conflict) : Prop where
  set : ∀ row s, (work row s).1.set = row.set
  other : ∀ row s t, t ≠ s → (work row s).1.cell t = row.cell t
  agree : ∀ row row' s, row.set = row'.set → row.cell s = row'.cell s →
    (work row s).1.cell s = (work row' s).1.cell s ∧ (work row s).2 = (work row' s).2

theorem eachCell_append (work : Row → SymbolId → Row × Option Conflict) (ids : List SymbolId)
    (s : SymbolId) (found : Row × List Conflict) :
    eachCell work (ids ++ [s]) found =
      ((work (eachCell work ids found).1 s).1,
        (eachCell work ids found).2 ++ (work (eachCell work ids found).1 s).2.toList) := by
  simp [eachCell]

theorem Local.eachCell {work : Row → SymbolId → Row × Option Conflict} (h : Local work)
    {ids : List SymbolId} (hids : ids.Nodup) (row : Row) (conflicts : List Conflict) :
    (eachCell work ids (row, conflicts)).1.set = row.set ∧
      (∀ s, (eachCell work ids (row, conflicts)).1.cell s =
        if s ∈ ids then (work row s).1.cell s else row.cell s) ∧
      (eachCell work ids (row, conflicts)).2 =
        conflicts ++ ids.flatMap fun s => (work row s).2.toList := by
  induction ids using List.reverseRecOn with
  | nil => simp [Grammar.eachCell]
  | append_singleton ids t ih =>
    have hnodup : ids.Nodup ∧ t ∉ ids := by
      simpa [List.nodup_append, imp_not_comm] using hids
    obtain ⟨hset, hcell, hconflicts⟩ := ih hnodup.1
    rw [eachCell_append]
    generalize Grammar.eachCell work ids (row, conflicts) = found at hset hcell hconflicts
    have hbefore : found.1.cell t = row.cell t := by rw [hcell, if_neg hnodup.2]
    obtain ⟨hagree, hconflict⟩ := h.agree found.1 row t hset hbefore
    refine ⟨(h.set _ _).trans hset, fun s => ?_, ?_⟩
    · by_cases he : s = t
      · subst he
        simpa using hagree
      · rw [h.other _ _ _ he, hcell]
        simp [he]
    · rw [hconflicts, hconflict]
      simp

theorem cell_foldl_insert (reduces : SymbolMap Nat) (s t : SymbolId) (rules : List Nat) :
    (rules.foldl (fun map rule => map.insert s rule) reduces).get? t =
      if t = s then rules.getLast?.or (reduces.get? t) else reduces.get? t := by
  induction rules using List.reverseRecOn with
  | nil => simp
  | append_singleton rules rule ih =>
    rw [List.foldl_append, List.foldl_cons, List.foldl_nil, SymbolMap.get?_insert, ih]
    by_cases he : t = s <;> simp [he]

theorem enterReduce_eq (g : Grammar) (a : Analysis) (state : Nat) (row : Row) (s : SymbolId) :
    (g.enterReduce a state row s).1.set = row.set ∧
      (∀ t, (g.enterReduce a state row s).1.cell t = if t = s then
        ((row.cell s).1, (row.set.reduceRules a s).getLast?.or (row.cell s).2) else row.cell t) ∧
      (g.enterReduce a state row s).2 = if 1 < (row.set.reduceRules a s).length then
        some (.reduceReduce state (g.symbols.name s) (row.set.reduceRules a s)) else none := by
  have hget := cell_foldl_insert row.actions.reduces s
  simp only [enterReduce]
  split <;> refine ⟨rfl, fun t => ?_, rfl⟩ <;> by_cases he : t = s <;>
    simp [Row.cell, State.shift?, State.reduce?, hget, he]

theorem local_enterReduce (g : Grammar) (a : Analysis) (state : Nat) :
    Local (g.enterReduce a state) where
  set := fun row s => (g.enterReduce_eq a state row s).1
  other := by
    intro row s t ht
    rw [(g.enterReduce_eq a state row s).2.1, if_neg ht]
  agree := by
    intro row row' s hset hcell
    obtain ⟨-, hc, hf⟩ := g.enterReduce_eq a state row s
    obtain ⟨-, hc', hf'⟩ := g.enterReduce_eq a state row' s
    rw [hc, hc', hf, hf', hset, hcell]
    exact ⟨rfl, rfl⟩

/-- What is left of a shift and a reduction of one cell. -/
def settle (g : Grammar) (s : SymbolId) (shift reduce : Option Nat) : Option Nat × Option Nat :=
  match reduce.bind (g.rules[·]?) with
  | none => (shift, reduce)
  | some rule =>
    match g.verdict s rule with
    | .shift => (shift, none)
    | .reduce => (none, reduce)
    | .neither => (none, none)
    | .undecided => (shift, reduce)

/-- What is left of a cell: it is settled if it has a shift. -/
def settled (g : Grammar) (s : SymbolId) (shift reduce : Option Nat) : Option Nat × Option Nat :=
  if shift.isSome then g.settle s shift reduce else (none, reduce)

theorem settled_cases (g : Grammar) (s : SymbolId) (shift reduce : Option Nat) :
    ((g.settled s shift reduce).1 = shift ∨ (g.settled s shift reduce).1 = none) ∧
      ((g.settled s shift reduce).2 = reduce ∨ (g.settled s shift reduce).2 = none) := by
  unfold settled settle
  cases shift with
  | none => simp
  | some next =>
    cases hr : reduce.bind (g.rules[·]?) with
    | none => simp
    | some rule => cases hv : g.verdict s rule <;> simp [hv]

theorem settled_fst {s : SymbolId} {shift reduce : Option Nat} {next : Nat}
    (h : (g.settled s shift reduce).1 = some next) : shift = some next := by
  rcases (g.settled_cases s shift reduce).1 with hc | hc
  · rw [← hc, h]
  · rw [hc] at h
    cases h

theorem settled_snd {s : SymbolId} {shift reduce : Option Nat} {i : Nat}
    (h : (g.settled s shift reduce).2 = some i) : reduce = some i := by
  rcases (g.settled_cases s shift reduce).2 with hc | hc
  · rw [← hc, h]
  · rw [hc] at h
    cases h

theorem settled_of_none (g : Grammar) (s : SymbolId) (shift : Option Nat) :
    g.settled s shift none = (shift, none) := by
  cases shift <;> simp [settled, settle]

def openConflict (g : Grammar) (state : Nat) (s : SymbolId) (reduce : Option Nat) :
    Option Conflict :=
  match reduce, reduce.bind (g.rules[·]?) with
  | some index, some rule =>
    if g.verdict s rule = .undecided then
      some (.shiftReduce state (g.symbols.name s) index (rule.text g.symbols))
    else none
  | _, _ => none

theorem resolve_eq (g : Grammar) (state : Nat) (row : Row) (s : SymbolId) :
    (g.resolve state row s).1.set = row.set ∧
      (∀ t, (g.resolve state row s).1.cell t =
        if t = s then g.settle s (row.cell s).1 (row.cell s).2 else row.cell t) ∧
      (g.resolve state row s).2 = g.openConflict state s (row.cell s).2 := by
  simp only [resolve, settle, openConflict, Row.cell, State.shift?, State.reduce?]
  cases hr : row.actions.reduces.get? s with
  | none =>
    refine ⟨rfl, fun t => ?_, rfl⟩
    by_cases he : t = s <;> simp [he, hr]
  | some index =>
    cases hrule : g.rules[index]? with
    | none =>
      refine ⟨by simp [hrule], fun t => ?_, by simp [hrule]⟩
      by_cases he : t = s <;> simp [he, hr, hrule]
    | some rule =>
      simp only [Option.bind_some, hrule]
      cases hv : g.verdict s rule <;> refine ⟨rfl, fun t => ?_, by simp⟩ <;>
        by_cases he : t = s <;> simp [he, hr]

theorem local_resolve (g : Grammar) (state : Nat) : Local (g.resolve state) where
  set := fun row s => (g.resolve_eq state row s).1
  other := by
    intro row s t ht
    rw [(g.resolve_eq state row s).2.1, if_neg ht]
  agree := by
    intro row row' s _ hcell
    rw [(g.resolve_eq state row s).2.1, (g.resolve_eq state row' s).2.1,
      (g.resolve_eq state row s).2.2, (g.resolve_eq state row' s).2.2, hcell]
    exact ⟨rfl, rfl⟩

def entered (a : Analysis) (set : ItemSet) (s : SymbolId) : Option Nat :=
  (set.reduceRules a s).getLast?

theorem cell_eachCell_enterReduce (g : Grammar) (a : Analysis) (state : Nat) (set : ItemSet)
    (shifts : SymbolMap Nat) (s : SymbolId) :
    (eachCell (g.enterReduce a state) (set.reduceSymbols a).toList
      ({ set, actions := { shifts } }, [])).1.cell s = (shifts.get? s, entered a set s) := by
  let shifting : Row := { set, actions := { shifts } }
  have hshifting : shifting.cell s = (shifts.get? s, none) := rfl
  have hmem : s ∈ (set.reduceSymbols a).toList ↔ set.reduceRules a s ≠ [] := by
    rw [SymbolSet.mem_toList, ItemSet.contains_reduceSymbols]
  obtain ⟨-, hcell, -⟩ :=
    (local_enterReduce g a state).eachCell (set.reduceSymbols a).toList_nodup shifting []
  rw [hcell]
  by_cases hs : s ∈ (set.reduceSymbols a).toList
  · rw [if_pos hs, (g.enterReduce_eq a state shifting s).2.1, if_pos rfl, hshifting]
    simp [entered, shifting]
  · have hnil : set.reduceRules a s = [] := by simpa using mt hmem.mpr hs
    rw [if_neg hs, hshifting, entered, hnil, List.getLast?_nil]

theorem row_eq (g : Grammar) (a : Analysis) (state : Nat) (set : ItemSet)
    {shifts : SymbolMap Nat}
    (hs : ∀ s, (shifts.get? s).isSome = true ↔ (set.shiftSymbols a).contains s = true) :
    (g.row a state set shifts).1.set = set ∧
      (∀ s, (g.row a state set shifts).1.cell s =
        g.settled s (shifts.get? s) (entered a set s)) ∧
      (g.row a state set shifts).2 =
        ((set.reduceSymbols a).toList.flatMap fun s =>
          (g.enterReduce a state { set, actions := { shifts } } s).2.toList) ++
        ((set.shiftSymbols a).inter (set.reduceSymbols a)).toList.flatMap fun s =>
          (g.openConflict state s (entered a set s)).toList := by
  let shifting : Row := { set, actions := { shifts } }
  let reducing := set.reduceSymbols a
  let both := (set.shiftSymbols a).inter reducing
  obtain ⟨hset₁, -, hconf₁⟩ :=
    (local_enterReduce g a state).eachCell reducing.toList_nodup shifting []
  have hcell₁ := g.cell_eachCell_enterReduce a state set shifts
  have hrow : g.row a state set shifts = eachCell (g.resolve state) both.toList
      (eachCell (g.enterReduce a state) reducing.toList (shifting, [])) := rfl
  rw [hrow]
  generalize eachCell (g.enterReduce a state) reducing.toList (shifting, []) = found
    at hset₁ hcell₁ hconf₁
  obtain ⟨hset₂, hcell₂, hconf₂⟩ :=
    (local_resolve g state).eachCell both.toList_nodup found.1 found.2
  refine ⟨hset₂.trans hset₁, fun s => ?_, ?_⟩
  · have hmem : s ∈ both.toList ↔ (shifts.get? s).isSome = true ∧ set.reduceRules a s ≠ [] := by
      rw [SymbolSet.mem_toList, SymbolSet.contains_inter, Bool.and_eq_true, hs,
        ItemSet.contains_reduceSymbols]
    rw [hcell₂, (g.resolve_eq state found.1 s).2.1, if_pos rfl, hcell₁]
    cases hshift : shifts.get? s with
    | none => simp [hmem, hshift, settled]
    | some next =>
      by_cases hnil : set.reduceRules a s = []
      · simp [hmem, hnil, entered, settled, settle]
      · simp [hmem, hnil, hshift, settled]
  · rw [hconf₂, hconf₁]
    simp only [(g.resolve_eq state _ _).2.2, hcell₁, List.nil_append, reducing, both, shifting]

/-! Rows with conflicts. -/

theorem conflicted_eachCell {work : Row → SymbolId → Row × Option Conflict}
    (hwork : ∀ row s, (work row s).1.conflicted = (row.conflicted || (work row s).2.isSome))
    (ids : List SymbolId) {found : Row × List Conflict}
    (hfound : found.1.conflicted = !found.2.isEmpty) :
    (eachCell work ids found).1.conflicted = !(eachCell work ids found).2.isEmpty := by
  induction ids using List.reverseRecOn with
  | nil => exact hfound
  | append_singleton ids s ih =>
    rw [eachCell_append, hwork, ih]
    cases (work (eachCell work ids found).1 s).2 <;> simp

theorem conflicted_enterReduce (g : Grammar) (a : Analysis) (state : Nat) (row : Row)
    (s : SymbolId) : (g.enterReduce a state row s).1.conflicted =
      (row.conflicted || (g.enterReduce a state row s).2.isSome) := by
  simp only [enterReduce]
  split_ifs <;> simp

theorem conflicted_resolve (g : Grammar) (state : Nat) (row : Row) (s : SymbolId) :
    (g.resolve state row s).1.conflicted =
      (row.conflicted || (g.resolve state row s).2.isSome) := by
  simp only [resolve]
  cases row.actions.reduces.get? s with
  | none => simp
  | some index =>
    cases hrule : g.rules[index]? with
    | none => simp [hrule]
    | some rule => cases hv : g.verdict s rule <;> simp [hrule, hv]

theorem conflicted_row (g : Grammar) (a : Analysis) (state : Nat) (set : ItemSet)
    (shifts : SymbolMap Nat) : (g.row a state set shifts).1.conflicted =
      !(g.row a state set shifts).2.isEmpty :=
  conflicted_eachCell (g.conflicted_resolve state) _
    (conflicted_eachCell (g.conflicted_enterReduce a state) _ rfl)

/-! The rows of the members. -/

theorem getElem?_rowsOf (g : Grammar) (a : Analysis) {c : Collection} {j : Nat} {m : Member}
    {shifts : SymbolMap Nat} (hm : c.members[j]? = some m) (hs : c.shifts[j]? = some shifts) :
    (g.rowsOf a c)[j]? = some (g.row a j m.set shifts) := by
  have hzip : (c.members.zip c.shifts)[j]? = some (m, shifts) :=
    List.getElem?_zip_eq_some.mpr ⟨hm, hs⟩
  simp [rowsOf, List.getElem?_mapIdx, hzip]

theorem configure_rows (hv : g.validate = .ok ()) :
    g.configure.2.rows = (g.rowsOf g.analysis (.of g.analysis)).map (·.1) := by
  simp only [configure, hv, build]
  split <;> rfl

end Grammar

end CanonicalLR
