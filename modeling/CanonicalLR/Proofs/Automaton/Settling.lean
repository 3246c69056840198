import CanonicalLR.Proofs.Automaton.Moves
import Mathlib.Order.WellFounded

/-! Reductions before one terminal. Once a rule has been reduced before a terminal, more reductions
lead to a stack on which the terminal can be shifted or the first rule reduced. So where the items
leave no choice, every series of reductions ends. -/

namespace CanonicalLR

variable {a : Analysis} {path path' : List SymbolId} {i d : Nat} {ahead : Option SymbolId}
  {s t : SymbolId}

abbrev Settling (a : Analysis) (t : SymbolId) :=
  Relation.ReflTransGen fun path path' => ∃ rule, Reduces a t rule path path'

/-- Where a sequence that vanishes stands behind the dot, reductions before the terminal push it,
unless the first rule can be reduced on the way. -/
theorem Parses.settling {trees : List Tree} {ids word rest : List SymbolId}
    (h : Parses a.symbols a.rules trees ids word) (hword : word = []) (hr : Reaches a path i d ahead)
    (hd : (a.rhs i).drop d = ids ++ rest) (hl : Leads a.symbols a.rules t rest ahead) :
    Settling a t path (path ++ ids) ∨ ∃ final, Settling a t path final ∧ CanReduce a final 0 t := by
  induction h generalizing path i d ahead rest with
  | nil =>
    rw [List.append_nil]
    exact Or.inl .refl
  | leaf => cases hword
  | @node rule children trees below roots word hrule hc hrest ihc ih =>
    obtain ⟨rfl, rfl⟩ := List.append_eq_nil_iff.mp hword
    obtain ⟨j, hj, hpredicts⟩ := Predicts.of_mem hrule hd
    have hstart : Reaches a path j 0 (some t) := hr.predict (hpredicts (some t)
      fun x hx => by cases hx; exact hl.of_vanishes ⟨trees, hrest⟩)
    have hd0 : (a.rhs j).drop 0 = rule.rhs ++ [] := by simp [Analysis.rhs_eq hj]
    rcases ihc rfl hstart hd0 (Or.inr ⟨.nil, rfl⟩) with hbelow | hstop
    · have hdone : Reaches a (path ++ rule.rhs) j rule.rhs.length (some t) := by
        simpa using (hstart.advance hd0).1
      by_cases h0 : j = 0
      · subst h0
        exact Or.inr ⟨_, hbelow, rule, hj, hdone⟩
      · have hpush : Settling a t path (path ++ [rule.lhs]) := hbelow.tail ⟨rule, .pop h0 hj hdone⟩
        have hcons : (a.rhs i).drop d = [rule.lhs] ++ (roots ++ rest) := hd
        obtain ⟨hr', hd'⟩ := hr.advance hcons
        rcases ih rfl hr' hd' hl with htail | ⟨final, hfinal, hend⟩
        · rw [List.append_assoc] at htail
          exact Or.inl (hpush.trans htail)
        · exact Or.inr ⟨final, hpush.trans hfinal, hend⟩
    · exact Or.inr hstop

theorem Starts.settling {ids : List SymbolId} (h : Starts a.symbols a.rules t ids)
    (hr : Reaches a path i d ahead) (hd : (a.rhs i).drop d = ids) :
    ∃ final, Settling a t path final ∧ (CanShift a final t ∨ CanReduce a final 0 t) := by
  induction h generalizing path i d ahead with
  | head => exact ⟨path, .refl, Or.inl (.of_drop hr hd)⟩
  | rule hrule _ ih =>
    obtain ⟨j, hj, hpredicts⟩ := Predicts.of_mem hrule hd
    have hstart : Reaches a path j 0 none := hr.predict (hpredicts none fun _ h => by cases h)
    exact ih hstart (by simp [Analysis.rhs_eq hj])
  | @skip s rest hv hs ih =>
    have hcons : (a.rhs i).drop d = [s] ++ rest := hd
    obtain ⟨trees, hv⟩ := hv
    rcases hv.settling rfl hr hcons (Or.inl hs) with hpush | ⟨final, hfinal, hend⟩
    · obtain ⟨hr', hd'⟩ := hr.advance hcons
      obtain ⟨final, hfinal, hend⟩ := ih hr' hd'
      exact ⟨final, hpush.trans hfinal, hend⟩
    · exact ⟨final, hfinal, Or.inr hend⟩

/-- After the left-hand side of a rule that was reduced before the terminal, the terminal comes to
be shifted or the first rule to be reduced. The induction is on how the item was reached: a rule
that is done before the terminal hands it on to the item that predicted the rule. -/
theorem Reaches.settling {rule : Rule} (h : Reaches a path i d ahead) (ht : ahead = some t)
    (hrule : a.rules[i]? = some rule) (hi : i ≠ 0) :
    ∃ before path', path = before ++ (a.rhs i).take d ∧
      Settling a t (before ++ [rule.lhs]) path' ∧
      (CanShift a path' t ∨ CanReduce a path' 0 t) := by
  induction h generalizing rule with
  | start => exact absurd rfl hi
  | @shift path i d ahead s _ hs ih =>
    obtain ⟨before, path', rfl, hpath', hend⟩ := ih ht hrule hi
    refine ⟨before, path', ?_, hpath', hend⟩
    rw [List.append_assoc, List.take_add_one, hs, Option.toList_some]
  | @predict path i d j ahead ahead' hr hp ih =>
    obtain ⟨rule', hj, hdot, hleads⟩ := hp
    obtain rfl := Option.some.inj (hj.symm.trans hrule)
    have hnext := hr.shift hdot
    rcases hleads t ht with hs | ⟨⟨trees, hv⟩, hahead⟩
    · obtain ⟨path', hpath', hend⟩ := hs.settling hnext rfl
      exact ⟨path, path', by simp, hpath', hend⟩
    · have hrest : (a.rhs i).drop (d + 1) = (a.rhs i).drop (d + 1) ++ [] := by simp
      rcases hv.settling rfl hnext hrest (Or.inr ⟨.nil, hahead⟩) with hpush | ⟨final, hfinal, hend⟩
      case inr => exact ⟨path, final, by simp, hfinal, Or.inr hend⟩
      obtain ⟨hdone, -⟩ := hnext.advance hrest
      obtain ⟨outer, houter, -⟩ := Analysis.exists_rule_of_mem (List.mem_of_getElem? hdot)
      have hlen : d + 1 + ((a.rhs i).drop (d + 1)).length = outer.rhs.length := by
        have hlt := (List.getElem?_eq_some_iff.mp hdot).1
        rw [List.length_drop, Analysis.rhs_eq houter] at *
        omega
      rw [hlen, hahead] at hdone
      by_cases hi0 : i = 0
      · subst hi0
        exact ⟨path, _, by simp, hpush, Or.inr ⟨outer, houter, hdone⟩⟩
      · obtain ⟨before, path', hpath, hpath', hend⟩ := ih hahead houter hi0
        have hsplit : path ++ [rule'.lhs] ++ (a.rhs i).drop (d + 1) = before ++ outer.rhs := by
          have htake := List.take_append_drop (d + 1) (a.rhs i)
          rw [List.take_add_one, hdot, Option.toList_some] at htake
          rw [hpath, ← Analysis.rhs_eq houter, List.append_assoc, List.append_assoc,
            ← List.append_assoc _ [rule'.lhs], htake]
        rw [hsplit] at hpush hdone
        exact ⟨path, path', by simp, hpush.trans (.head ⟨outer, .pop hi0 houter hdone⟩ hpath'), hend⟩

theorem Reduces.settling {rule : Rule} (h : Reduces a t rule path path') :
    ∃ final, Settling a t path' final ∧ (CanShift a final t ∨ CanReduce a final 0 t) := by
  cases h with
  | @pop before i hi hrule hr =>
    obtain ⟨before', final, hpath, hfinal, hend⟩ := hr.settling rfl hrule hi
    rw [Analysis.rhs_eq hrule, List.take_length] at hpath
    obtain rfl := List.append_cancel_right hpath
    exact ⟨final, hfinal, hend⟩

/-- No two rules can be reduced before the same terminal. -/
def Unrivalled (a : Analysis) : Prop :=
  ∀ path t i j, CanReduce a path i t → CanReduce a path j t → i = j

structure Determined (a : Analysis) : Prop where
  shift : ∀ path t i, CanShift a path t → ¬ CanReduce a path i t
  reduce : Unrivalled a

theorem Reduces.canReduce {rule : Rule} (h : Reduces a t rule path path') :
    ∃ i, i ≠ 0 ∧ CanReduce a path i t := by
  cases h with
  | pop hi hrule hr => exact ⟨_, hi, rule, hrule, hr⟩

theorem CanReduce.reduces {i : Nat} (h : CanReduce a path i t) (hi : i ≠ 0) :
    ∃ rule path', Reduces a t rule path path' := by
  obtain ⟨rule, hrule, hr⟩ := h
  obtain ⟨before, rfl, -⟩ := hr.pop hrule
  exact ⟨rule, _, .pop hi hrule hr⟩

namespace Unrivalled

variable (hone : Unrivalled a)
include hone

theorem reduces_unique {rule rule' : Rule} {next next' : List SymbolId}
    (h : Reduces a t rule path next) (h' : Reduces a t rule' path next') :
    rule = rule' ∧ next = next' := by
  generalize hpath : path = stack at h'
  cases h with
  | @pop before i hi hrule hr =>
    cases h' with
    | @pop before' j hj hrule' hr' =>
      have hij : i = j := hone _ t i j ⟨rule, hrule, hr⟩ ⟨rule', hrule', hpath ▸ hr'⟩
      subst hij
      obtain rfl := Option.some.inj (hrule.symm.trans hrule')
      obtain rfl := List.append_cancel_right hpath
      exact ⟨rfl, rfl⟩

theorem acc_of_settling {final : List SymbolId} (h : Settling a t path final)
    (hf : CanShift a final t ∨ CanReduce a final 0 t) :
    Acc (fun path' path => ¬ CanShift a path t ∧ ∃ rule, Reduces a t rule path path') path := by
  induction h using Relation.ReflTransGen.head_induction_on with
  | refl =>
    refine ⟨_, fun next ⟨hno, rule, hr⟩ => ?_⟩
    obtain ⟨i, hi, hc⟩ := hr.canReduce
    rcases hf with hs | h0
    · exact absurd hs hno
    · exact absurd (hone _ t i 0 hc h0) hi
  | head hstep _ ih =>
    obtain ⟨rule, hr⟩ := hstep
    refine ⟨_, fun next ⟨_, rule', hr'⟩ => ?_⟩
    rw [← (hone.reduces_unique hr hr').2]
    exact ih

/-- A series of reductions before a terminal ends if it stops where the terminal can be shifted. -/
theorem acc_reduces (t : SymbolId) (path : List SymbolId) :
    Acc (fun path' path => ¬ CanShift a path t ∧ ∃ rule, Reduces a t rule path path') path := by
  refine ⟨_, fun next ⟨_, rule, hr⟩ => ?_⟩
  obtain ⟨final, hfinal, hf⟩ := hr.settling
  exact hone.acc_of_settling hfinal hf

end Unrivalled

namespace Determined

variable (hdet : Determined a)
include hdet

theorem not_reduces (h : CanShift a path t ∨ CanReduce a path 0 t) (rule : Rule)
    (path' : List SymbolId) : ¬ Reduces a t rule path path' := by
  intro hr
  obtain ⟨i, hi, hc⟩ := hr.canReduce
  rcases h with hs | h0
  · exact hdet.shift path t i hs hc
  · exact hi (hdet.reduce path t i 0 hc h0)

theorem moves_unique {input : List SymbolId} {moves moves' : List Move}
    {final final' : List SymbolId} (h : Moves a path input moves final [t])
    (h' : Moves a path input moves' final' [t]) (hf : CanReduce a final 0 t)
    (hf' : CanReduce a final' 0 t) : moves = moves' := by
  generalize hout : [t] = rest at h
  induction h generalizing moves' with
  | done =>
    subst hout
    cases h' with
    | done => rfl
    | shift hs _ => exact absurd hf (hdet.shift _ _ _ hs)
    | reduce hr _ => exact absurd hr (hdet.not_reduces (Or.inr hf) _ _)
  | shift hs _ ih =>
    cases h' with
    | done => exact absurd hf' (hdet.shift _ _ _ hs)
    | shift _ h' => rw [ih h' hf hout]
    | reduce hr _ => exact absurd hr (hdet.not_reduces (Or.inl hs) _ _)
  | reduce hr _ ih =>
    cases h' with
    | done => exact absurd hr (hdet.not_reduces (Or.inr hf') _ _)
    | shift hs _ => exact absurd hr (hdet.not_reduces (Or.inl hs) _ _)
    | reduce hr' h' =>
      obtain ⟨rfl, rfl⟩ := hdet.reduce.reduces_unique hr hr'
      rw [ih h' hf hout]

theorem settling_unique {final final' : List SymbolId} (h : Settling a t path final)
    (h' : Settling a t path final') (hf : CanShift a final t ∨ CanReduce a final 0 t)
    (hf' : CanShift a final' t ∨ CanReduce a final' 0 t) : final = final' := by
  have stays : ∀ {final final'}, CanShift a final t ∨ CanReduce a final 0 t →
      Settling a t final final' → final = final' := by
    intro final final' hf hs
    rcases hs.cases_head with rfl | ⟨next, ⟨rule, hr⟩, -⟩
    · rfl
    · exact absurd hr (hdet.not_reduces hf rule next)
  have hunique : Relator.RightUnique fun path path' => ∃ rule, Reduces a t rule path path' := by
    rintro p q q' ⟨rule, hr⟩ ⟨rule', hr'⟩
    exact (hdet.reduce.reduces_unique hr hr').2
  rcases Relation.ReflTransGen.total_of_right_unique hunique h h' with hs | hs
  · exact stays hf hs
  · exact (stays hf' hs).symm

end Determined

/-! Reading a word. -/

/-- The stack on which the last terminal of the word has just been shifted. -/
inductive Reads (a : Analysis) : List SymbolId → List SymbolId → Prop where
  | nil : Reads a [] []
  | shift {word path path' : List SymbolId} {s : SymbolId} :
      Reads a word path → Settling a s path path' → CanShift a path' s →
      Reads a (word ++ [s]) (path' ++ [s])

theorem Reads.reaches {word : List SymbolId} (h : Reads a word path) :
    ∃ i d ahead, Reaches a path i d ahead := by
  cases h with
  | nil => exact ⟨0, 0, none, .start fun _ h => by cases h⟩
  | shift _ _ hshift =>
    obtain ⟨i, d, ahead, hr, hs⟩ := hshift
    exact ⟨i, d + 1, ahead, hr.shift hs⟩

theorem Settling.parses (h : Settling a t path path') {trees : List Tree} {word : List SymbolId}
    (hp : Parses a.symbols a.rules trees path word) :
    ∃ trees', Parses a.symbols a.rules trees' path' word := by
  induction h with
  | refl => exact ⟨trees, hp⟩
  | tail _ hr ih =>
    obtain ⟨rule, hr⟩ := hr
    obtain ⟨trees', hp'⟩ := ih
    cases hr with
    | pop _ hrule _ =>
      obtain ⟨_, _, -, -, hjoin⟩ := hp'.join (List.mem_of_getElem? hrule)
      exact ⟨_, hjoin⟩

theorem Reads.parses {word : List SymbolId} (h : Reads a word path)
    (hw : AllTerminal a.symbols word) : ∃ trees, Parses a.symbols a.rules trees path word := by
  induction h with
  | nil => exact ⟨[], .nil⟩
  | @shift word path final s _ hs _ ih =>
    obtain ⟨trees, hp⟩ := ih fun t ht => hw t (List.mem_append_left _ ht)
    obtain ⟨trees', hp'⟩ := hs.parses hp
    have hleaf : Parses a.symbols a.rules [.leaf s] [s] [s] := .leaf (hw s (by simp)) .nil
    exact ⟨_, hp'.append hleaf⟩

theorem Determined.reads_unique (hdet : Determined a) {word : List SymbolId}
    (h : Reads a word path) (h' : Reads a word path') : path = path' := by
  induction h generalizing path' with
  | nil =>
    generalize hw : ([] : List SymbolId) = word at h'
    cases h' with
    | nil => rfl
    | shift => simp at hw
  | @shift word path final s _ hs hshift ih =>
    generalize hw : word ++ [s] = whole at h'
    cases h' with
    | nil => simp at hw
    | shift hr' hs' hshift' =>
      obtain ⟨rfl, hss⟩ := List.append_inj' hw rfl
      obtain rfl := List.singleton_inj.mp hss
      obtain rfl := ih hr'
      rw [hdet.settling_unique hs hs' (Or.inl hshift) (Or.inl hshift')]

def CanAct (a : Analysis) (path : List SymbolId) (t : SymbolId) : Prop :=
  CanShift a path t ∨ ∃ i, CanReduce a path i t

theorem Settling.eq_or_canAct (h : Settling a t path path') : path = path' ∨ CanAct a path t := by
  rcases h.cases_head with he | ⟨next, ⟨rule, hr⟩, -⟩
  · exact Or.inl he
  · obtain ⟨i, -, hc⟩ := hr.canReduce
    exact Or.inr (Or.inr ⟨i, hc⟩)

/-- Moves that pass over a word read it, and can go on with the terminal behind it unless they
stop there. -/
theorem Moves.reads {input input' word rest done before : List SymbolId} {moves : List Move}
    (h : Moves a path input moves path' input') (hin : input = word ++ t :: rest)
    (hout : input'.length ≤ rest.length + 1) (hdone : Reads a done before)
    (hs : ∀ s, input.head? = some s → Settling a s before path) :
    ∃ stack, Reads a (done ++ word) stack ∧
      (CanAct a stack t ∨ (stack = path' ∧ input' = t :: rest)) := by
  induction h generalizing word done before with
  | @done path input =>
    subst hin
    have hw : word = [] := by
      simp only [List.length_append, List.length_cons] at hout
      exact List.length_eq_zero_iff.mp (by omega)
    subst hw
    refine ⟨before, by simpa using hdone, ?_⟩
    exact (hs t rfl).eq_or_canAct.symm.imp_right fun he => ⟨he, rfl⟩
  | @shift path input path' input' s moves hshift _ ih =>
    cases word with
    | nil =>
      obtain ⟨rfl, rfl⟩ := List.cons.inj hin
      refine ⟨before, by simpa using hdone, Or.inl ?_⟩
      rcases (hs s rfl).eq_or_canAct with rfl | hact
      · exact Or.inl hshift
      · exact hact
    | cons s' word =>
      obtain ⟨rfl, hrest⟩ := List.cons.inj hin
      obtain ⟨stack, hread, hend⟩ := ih hrest hout (.shift hdone (hs s rfl) hshift)
        fun _ _ => .refl
      exact ⟨stack, by simpa using hread, hend⟩
  | @reduce path next input path' input' s rule moves hr _ ih =>
    refine ih hin hout hdone fun s' hs' => ?_
    obtain rfl := Option.some.inj hs'
    exact (hs s rfl).tail ⟨rule, hr⟩

end CanonicalLR
