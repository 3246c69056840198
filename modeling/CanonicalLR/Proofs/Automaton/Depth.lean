import CanonicalLR.Proofs.Automaton.Reaches
import CanonicalLR.Proofs.Derivation.Looping

/-! How much a stack can hold. Where no symbol comes back to itself before anything but ends of the
input, the forest on a stack is bounded by the number of other terminals in it. -/

namespace CanonicalLR

variable {a : Analysis} {path : List SymbolId} {i d : Nat} {ahead : Option SymbolId} {width : Nat}

/-- A mute part at the end of a stack is short: an item of another rule is on the way for each
piece of it, and each time fewer symbols can come later. -/
theorem Reaches.length_mute_le (hno : ¬ Looping a.symbols a.rules)
    (hwidth : ∀ rule ∈ a.rules, rule.rhs.length ≤ width) (h : Reaches a path i d ahead)
    {rule : Rule} (hrule : a.rules[i]? = some rule) {front back : List SymbolId}
    (hpath : path = front ++ back) (hmute : Mute a.symbols a.rules back) :
    back.length + width * rank (Later a.symbols a.rules) rule.lhs ≤ width * maxSymbols + d := by
  induction h generalizing rule front back with
  | start =>
    obtain ⟨-, rfl⟩ := List.append_eq_nil_iff.mp hpath.symm
    have hlt := rank_lt_maxSymbols (not_later_self hno rule.lhs)
    simpa using Nat.mul_le_mul_left width hlt.le
  | @shift path i d ahead s _ _ ih =>
    cases back using List.reverseRecOn with
    | nil =>
      have hle := ih hrule (List.append_nil path).symm .nil
      simp only [List.length_nil] at hle ⊢
      omega
    | append_singleton back s' =>
      rw [← List.append_assoc] at hpath
      have hle := ih hrule (List.append_inj_left' hpath rfl) hmute.of_append.1
      rw [List.length_append, List.length_singleton]
      omega
  | @predict path i d j ahead ahead' hr hp ih =>
    obtain ⟨inner, hinner, hdot, -⟩ := hp
    obtain rfl := Option.some.inj (hinner.symm.trans hrule)
    obtain ⟨outer, houter, -⟩ := Analysis.exists_rule_of_mem (List.mem_of_getElem? hdot)
    have hle := ih houter hpath hmute
    rw [Analysis.rhs_eq houter] at hdot
    obtain ⟨hd, -⟩ := List.getElem?_eq_some_iff.mp hdot
    have hmem := List.mem_of_getElem? houter
    have hwide := hwidth outer hmem
    by_cases hshort : back.length ≤ d
    · have hlt := rank_lt_maxSymbols (not_later_self hno inner.lhs)
      have hmul := Nat.mul_le_mul_left width hlt
      rw [Nat.mul_succ] at hmul
      omega
    · -- all of the rule so far is mute
      obtain ⟨before, hbefore, -⟩ := hr.split
      rw [Analysis.rhs_eq houter] at hbefore
      have htake : (outer.rhs.take d).length = d := List.length_take_of_le hd.le
      obtain ⟨middle, rfl⟩ : outer.rhs.take d <:+ back := by
        refine List.suffix_of_suffix_length_le ⟨before, hbefore.symm⟩ ⟨front, hpath.symm⟩ ?_
        omega
      have hrank := length_add_rank_le hno (Embeds.of_rule hmem (Rule.rhs_split hdot))
        hmute.of_append.2 (htake ▸ hd.le.trans hwide)
      omega

/-- The longest mute part of a stack, where no right-hand side is longer than `width`. -/
def quiet (width : Nat) : Nat := width * maxSymbols + width

theorem Reaches.length_le_quiet (hno : ¬ Looping a.symbols a.rules) (hpos : 0 < a.rules.length)
    (hwidth : ∀ rule ∈ a.rules, rule.rhs.length ≤ width) {front back rest : List SymbolId}
    (h : Reaches a (front ++ back ++ rest) i d ahead) (hmute : Mute a.symbols a.rules back) :
    back.length ≤ quiet width := by
  obtain ⟨j, e, ahead', hr⟩ := h.exists_of_append
  obtain ⟨hlt, hle⟩ := hr.within hpos
  have hrule : a.rules[j]? = some _ := List.getElem?_eq_getElem hlt
  have hlen := hr.length_mute_le hno hwidth hrule rfl hmute
  have hwide := hwidth _ (List.mem_of_getElem? hrule)
  rw [Analysis.rhs_eq hrule] at hle
  unfold quiet
  omega

/-- Between any two parts that are not mute there is a short mute one. -/
theorem Parses.length_le_of_quiet {r : Registry} {rules : List Rule} {bound : Nat}
    {trees : List Tree} {roots word back : List SymbolId} (h : Parses r rules trees roots word)
    (hback : Mute r rules back)
    (hshort : ∀ front middle rest, back ++ roots = front ++ middle ++ rest → Mute r rules middle →
      middle.length ≤ bound) :
    back.length + roots.length ≤ bound + (bound + 1) * loudness word := by
  induction roots generalizing trees word back with
  | nil =>
    have hhere := hshort [] back [] (by simp) hback
    rw [List.length_nil]
    omega
  | cons s roots ih =>
    have hcons : Parses r rules trees ([s] ++ roots) word := h
    obtain ⟨_, _, here, word, -, rfl, hs, hrest⟩ := hcons.split
    rw [loudness_append, List.length_cons, Nat.mul_add]
    by_cases hquiet : loudness here = 0
    · have hle := ih hrest (hback.append (hs.mute hquiet)) (by simpa using hshort)
      rw [List.length_append, List.length_singleton] at hle
      omega
    · have hle := ih hrest .nil fun front middle rest he =>
        hshort (back ++ s :: front) middle rest (by simpa using he)
      have hhere := hshort [] back (s :: roots) rfl hback
      have hmul := Nat.mul_le_mul_left (bound + 1) (Nat.pos_of_ne_zero hquiet)
      simp only [List.length_nil, Nat.zero_add, Nat.succ_eq_add_one, Nat.mul_one] at hle hmul
      omega

/-- The most moves that build a stack with so many terminals that are not ends of the input. -/
def moveBound (width loud : Nat) : Nat :=
  (quiet width + (quiet width + 1) * loud) *
    (width + 1) ^ (loud * (maxSymbols + 1) + maxSymbols)

theorem Reaches.length_movesOf_le (hno : ¬ Looping a.symbols a.rules) (hpos : 0 < a.rules.length)
    (hwidth : ∀ rule ∈ a.rules, rule.rhs.length ≤ width) (h : Reaches a path i d ahead)
    {trees : List Tree} {word : List SymbolId} (hp : Parses a.symbols a.rules trees path word)
    {loud : Nat} (hloud : loudness word ≤ loud) :
    (Tree.movesOf trees).length ≤ moveBound width loud := by
  have hlen : path.length ≤ quiet width + (quiet width + 1) * loudness word := by
    have hle := hp.length_le_of_quiet .nil fun front middle rest he hmute => by
      rw [List.nil_append] at he
      exact (he ▸ h).length_le_quiet hno hpos hwidth hmute
    simpa using hle
  have hmoves : (Tree.movesOf trees).length ≤
      path.length * (width + 1) ^ (loud * (maxSymbols + 1) + maxSymbols) := by
    refine Parses.length_movesOf_le .nil hp fun _ s _ tree before word' after _ _ htree _ hword => ?_
    refine htree.length_moves_le hno hwidth ?_
    have hpart : loudness word' ≤ loud := by
      rw [← List.nil_append word, hword, loudness_append, loudness_append] at hloud
      omega
    have hlt := rank_lt_maxSymbols (not_inner_self hno s)
    have hmul := Nat.mul_le_mul_right (maxSymbols + 1) hpart
    omega
  refine hmoves.trans (Nat.mul_le_mul_right _ (hlen.trans ?_))
  exact Nat.add_le_add_left (Nat.mul_le_mul_left _ hloud) _

theorem Tree.length_movesOf_append (trees more : List Tree) :
    (Tree.movesOf (trees ++ more)).length =
      (Tree.movesOf trees).length + (Tree.movesOf more).length := by
  induction trees with
  | nil => simp [Tree.movesOf]
  | cons tree trees ih =>
    simp only [List.cons_append, Tree.movesOf, List.length_append, ih]
    omega

/-- There is a forest on the stack with room left for so many moves, if so many terminals are still
to come. -/
def Fits (a : Analysis) (width loud room : Nat) (path : List SymbolId) (coming : Nat) : Prop :=
  ∃ trees word, Parses a.symbols a.rules trees path word ∧ loudness word + coming ≤ loud ∧
    moveBound width loud ≤ (Tree.movesOf trees).length + room

namespace Fits

variable {loud room coming : Nat} {s : SymbolId}

theorem mono {fewer : Nat} (h : Fits a width loud room path coming) (hle : fewer ≤ coming) :
    Fits a width loud room path fewer := by
  obtain ⟨trees, word, hp, hloud, hroom⟩ := h
  exact ⟨trees, word, hp, by omega, hroom⟩

variable (hno : ¬ Looping a.symbols a.rules)
  (hpos : 0 < a.rules.length) (hwidth : ∀ rule ∈ a.rules, rule.rhs.length ≤ width)
include hno hpos hwidth

theorem shift (h : Fits a width loud room path (loudness [s] + coming))
    (hs : a.symbols.isTerminal s = true) (hr : Reaches a (path ++ [s]) i d ahead) :
    0 < room ∧ Fits a width loud (room - 1) (path ++ [s]) coming := by
  obtain ⟨trees, word, hp, hloud, hroom⟩ := h
  have hp' : Parses a.symbols a.rules (trees ++ [.leaf s]) (path ++ [s]) (word ++ [s]) :=
    hp.append (.leaf hs .nil)
  have hloud' : loudness (word ++ [s]) + coming ≤ loud := by
    rw [loudness_append]
    omega
  have hbound := hr.length_movesOf_le hno hpos hwidth hp' (Nat.le_of_add_right_le hloud')
  have hsize : (Tree.movesOf (trees ++ [.leaf s])).length = (Tree.movesOf trees).length + 1 := by
    rw [Tree.length_movesOf_append]
    rfl
  exact ⟨by omega, _, _, hp', hloud', by omega⟩

theorem reduce {before : List SymbolId} {rule : Rule} (hrule : rule ∈ a.rules)
    (h : Fits a width loud room (before ++ rule.rhs) coming)
    (hr : Reaches a (before ++ [rule.lhs]) i d ahead) :
    0 < room ∧ Fits a width loud (room - 1) (before ++ [rule.lhs]) coming := by
  obtain ⟨_, word, hp, hloud, hroom⟩ := h
  obtain ⟨left, right, rfl, -, hp'⟩ := hp.join hrule
  have hbound := hr.length_movesOf_le hno hpos hwidth hp' (Nat.le_of_add_right_le hloud)
  have hsize : (Tree.movesOf (left ++ [.node rule right])).length =
      (Tree.movesOf (left ++ right)).length + 1 := by
    simp only [Tree.length_movesOf_append, Tree.movesOf, Tree.moves, List.length_append,
      List.length_singleton, List.length_nil]
    omega
  exact ⟨by omega, _, _, hp', hloud, by omega⟩

end Fits

end CanonicalLR
