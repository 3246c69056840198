import CanonicalLR.Proofs.Grammar.Resolution

/-! What configuring leaves, whether or not conflicts are left. The grammar is as before, its rows
have the item sets in their order, and a row is flagged if there is a conflict in its state. -/

namespace CanonicalLR.Grammar

variable {g : Grammar} {c : Conflict}

/-- The grammar has its item sets and its conflicts, and all else is as it was before. -/
structure LaidOut (g left : Grammar) : Prop where
  reset : left.reset = g.reset
  sets : left.rows.map (·.set) = (Collection.of g.analysis).members.map (·.set)
  flagged : ∀ j row, left.rows[j]? = some row →
    (row.conflicted = true ↔ ∃ c ∈ left.conflicts, c.state = j)

theorem LaidOut.symbols_eq {left : Grammar} (h : LaidOut g left) : left.symbols = g.symbols :=
  show left.reset.symbols = g.reset.symbols by rw [h.reset]

theorem reset_configure (g : Grammar) : g.configure.2.reset = g.reset := by
  rw [configure]
  split
  · rfl
  · rw [build]
    split_ifs <;> rfl

theorem mem_conflicts (hv : g.validate = .ok ()) : c ∈ g.configure.2.conflicts ↔
    ∃ (j : Nat) (found : Row × List Conflict),
      (g.rowsOf g.analysis (.of g.analysis))[j]? = some found ∧ c ∈ found.2 := by
  rw [(configure_conflicts hv).1, List.mem_flatMap]
  constructor
  · rintro ⟨found, hmem, hc⟩
    obtain ⟨j, hj⟩ := List.mem_iff_getElem?.mp hmem
    exact ⟨j, found, hj, hc⟩
  · rintro ⟨j, found, hj, hc⟩
    exact ⟨found, List.mem_of_getElem? hj, hc⟩

variable (hg : g.Built) (hv : g.validate = .ok ())
include hg hv

theorem laidOut_configure : LaidOut g g.configure.2 := by
  refine ⟨g.reset_configure, sets_eq hg hv, fun j row hrow => ?_⟩
  obtain ⟨m, shifts, path, hfound, rfl, -⟩ := exists_member hg hv hrow
  rw [conflicted_row, Bool.not_eq_true', List.isEmpty_eq_false_iff_exists_mem]
  constructor
  · rintro ⟨c, hc⟩
    exact ⟨c, (mem_conflicts hv).mpr ⟨j, _, hfound, hc⟩, (state_of_mem_rowsOf hg hv hfound hc).1⟩
  · rintro ⟨c, hc, rfl⟩
    obtain ⟨i, found, hi, hc⟩ := (mem_conflicts hv).mp hc
    obtain rfl := (state_of_mem_rowsOf hg hv hi hc).1
    obtain rfl := Option.some.inj (hi.symm.trans hfound)
    exact ⟨c, hc⟩

/-- A conflict shows the rule that it is about. -/
theorem exists_rule_of_mem_conflicts (hc : c ∈ g.configure.2.conflicts) {state i : Nat}
    {symbol ruleText : String} (he : c = .shiftReduce state symbol i ruleText) :
    ∃ rule : Rule, g.rules[i]? = some rule ∧ ruleText = rule.text g.symbols := by
  obtain ⟨j, found, hfound, hc⟩ := (mem_conflicts hv).mp hc
  have hrow : g.configure.2.rows[j]? = some found.1 := by
    rw [configure_rows hv, List.getElem?_map, hfound, Option.map_some]
  obtain ⟨m, shifts, path, hfound', -, -, hspells, hs, -⟩ := exists_member hg hv hrow
  obtain rfl := Option.some.inj (hfound.symm.trans hfound')
  rw [conflicts_row hg hspells hs, List.mem_append, List.mem_flatMap, List.mem_flatMap] at hc
  rcases hc with ⟨s, -, hc⟩ | ⟨s, -, hc⟩
  · rw [rivalry] at hc
    split_ifs at hc
    · cases he.symm.trans (List.mem_singleton.mp hc)
    · cases hc
  · obtain ⟨i', rule, hrule, hc⟩ := of_mem_openConflict hc
    cases he.symm.trans hc
    exact ⟨rule, hrule, rfl⟩

end CanonicalLR.Grammar
