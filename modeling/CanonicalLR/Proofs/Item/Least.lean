import CanonicalLR.Proofs.Grammar.Built

/-! Closing a set of items as a loop and as a least set. The walks over a set note whether they
changed it and are made until one did not. What they leave is the least set that holds the given
items and all that its own items predict, in whatever order the items were given. -/

namespace CanonicalLR

variable {a : Analysis}

/-- Both stand for the same rule and dot, and the other one has all the terminals ahead. -/
def Item.Within (it other : Item) : Prop :=
  it.rule = other.rule ∧ it.dot = other.dot ∧
    ∀ t, it.follow.contains t = true → other.follow.contains t = true

/-- With more terminals ahead an item predicts the same starts of rules, and no fewer terminals
ahead of them. -/
theorem Item.Within.closure {it other : Item} (h : it.Within other) {x : Item}
    (hx : x ∈ it.closure a) : ∃ y ∈ other.closure a, x.Within y := by
  obtain ⟨hrule, hdot, hfollow⟩ := h
  have hahead : other.ahead a = it.ahead a := by rw [ahead, ahead, hrule, hdot]
  unfold Item.closure at hx ⊢
  rw [hahead]
  split at hx
  · cases hx
  · rename_i s rest _
    split at hx
    · cases hx
    · rename_i hs
      obtain ⟨rule, hmem, rfl⟩ := List.mem_map.mp hx
      rw [if_neg hs]
      refine ⟨_, List.mem_map.mpr ⟨rule, hmem, rfl⟩, rfl, rfl, fun t ht => ?_⟩
      simp only [followAfter] at ht ⊢
      split at ht
      · rename_i hn
        rw [if_pos hn]
        rw [SymbolSet.contains_merge, Bool.or_eq_true] at ht ⊢
        exact ht.imp_right (hfollow t)
      · rename_i hn
        rwa [if_neg hn]

namespace ItemSet

variable {set given other : ItemSet} {it : Item} {place : Nat}

/-! The walks. -/

/-- Adds an item, with a note of whether anything was changed so far. -/
def addNoting (found : ItemSet × Bool) (item : Item) : ItemSet × Bool :=
  (found.1.add item, found.2 || found.1.addGrows item)

/-- A walk from a place on. It goes over the items that it adds as well, and comes to no item for
which there is no rule. -/
inductive Walks (a : Analysis) : Nat → ItemSet × Bool → ItemSet × Bool → Prop where
  | done {place : Nat} {found : ItemSet × Bool} : found.1.items.length ≤ place →
      Walks a place found found
  | item {place : Nat} {found found' : ItemSet × Bool} {it : Item} :
      found.1.items[place]? = some it → it.rule < a.rules.length →
      Walks a (place + 1) ((it.closure a).foldl addNoting found) found' →
      Walks a place found found'

/-- Walks are made until one changes nothing. -/
inductive ClosesTo (a : Analysis) : ItemSet → ItemSet → Prop where
  | last {set set' : ItemSet} : Walks a 0 (set, false) (set', false) → ClosesTo a set set'
  | again {set set' set'' : ItemSet} : Walks a 0 (set, false) (set', true) →
      ClosesTo a set' set'' → ClosesTo a set set''

theorem foldl_addNoting (items : List Item) (set : ItemSet) (changed : Bool) :
    items.foldl addNoting (set, changed) =
      (set.addAll items, changed || decide (set.addAll items ≠ set)) := by
  have hnote : ∀ (set : ItemSet) changed, True → ∀ item ∈ items, addNoting (set, changed) item =
      (set.add item, changed || decide (set.add item ≠ set)) := by
    intro set changed _ item _
    simp [addNoting, addGrows, bne, Bool.beq_eq_decide_eq]
  exact Advances.foldl_note advances_add (fun _ _ _ _ => trivial) hnote trivial changed

theorem foldl_closeAt_of_le (places : List Nat) (h : ∀ place ∈ places, set.items.length ≤ place) :
    places.foldl (closeAt a) set = set := by
  induction places with
  | nil => rfl
  | cons place places ih =>
    obtain ⟨hplace, hplaces⟩ := List.forall_mem_cons.mp h
    have hat : closeAt a set place = set := by
      rw [closeAt, List.getElem?_eq_none_iff.mpr hplace]
    rw [List.foldl_cons, hat, ih hplaces]

theorem Outgrown.rule_lt {first : ItemSet} (h : Outgrown a first set)
    (hfirst : ∀ it ∈ first.items, it.rule < a.rules.length) :
    ∀ it ∈ set.items, it.rule < a.rules.length := by
  intro it hit
  rcases List.mem_append.mp (h.2 _ (List.mem_map_of_mem hit)) with hmem | hmem
  · obtain ⟨x, hx, hposition⟩ := List.mem_map.mp hmem
    exact ((position_eq_iff x it).mp hposition).1 ▸ hfirst x hx
  · obtain ⟨j, hj, hposition⟩ := List.mem_map.mp hmem
    exact (Prod.mk.inj hposition).1 ▸ List.mem_range.mp hj

theorem rule_lt_ofList {items : List Item} {n : Nat} (h : ∀ it ∈ items, it.rule < n) :
    ∀ it ∈ (ofList items).items, it.rule < n := by
  intro it hit
  obtain ⟨x, hx, hrule, -⟩ := (has_ofList items it.rule it.dot none).mp
    ⟨it, hit, rfl, rfl, nofun⟩
  exact hrule ▸ h x hx

/-- The places up to the bound are enough for a walk, since no set outgrows it. -/
theorem walks_foldl (ha : a.Indexed) {first : ItemSet}
    (hfirst : ∀ it ∈ first.items, it.rule < a.rules.length) (places : Nat)
    (h : Outgrown a first set) (hplaces : first.items.length + a.rules.length ≤ place + places)
    (changed : Bool) :
    Walks a place (set, changed) ((List.range' place places).foldl (closeAt a) set,
      changed || decide ((List.range' place places).foldl (closeAt a) set ≠ set)) := by
  induction places generalizing set place changed with
  | zero =>
    have hwalk : Walks a place (set, changed) (set, changed) :=
      .done (h.length_le.trans hplaces)
    simpa using hwalk
  | succ places ih =>
    rw [List.range'_succ, List.foldl_cons]
    by_cases hlt : place < set.items.length
    · let it := set.items[place]
      have hit : set.items[place]? = some it := List.getElem?_eq_getElem hlt
      have hat : closeAt a set place = set.addAll (it.closure a) := by rw [closeAt, hit]
      have hrule : it.rule < a.rules.length := h.rule_lt hfirst it (List.getElem_mem hlt)
      have hplaces' : first.items.length + a.rules.length ≤ place + 1 + places := by omega
      have hrest := ih (h.closeAt ha place) hplaces'
        (changed || decide (closeAt a set place ≠ set))
      have hboth := (advances_closeAt a set place).eq_iff
        (.foldl (advances_closeAt a) (List.range' (place + 1) places) (closeAt a set place))
      refine .item hit hrule ?_
      rw [foldl_addNoting, ← hat]
      rw [Bool.or_assoc, ← Bool.decide_or] at hrest
      convert hrest using 4
      rw [ne_eq, ne_eq, ne_eq, hboth, not_and_or]
    · have hle : set.items.length ≤ place := Nat.not_lt.mp hlt
      have hstay : (List.range' place (places + 1)).foldl (closeAt a) set = set :=
        foldl_closeAt_of_le _ fun k hk => hle.trans (List.mem_range'_1.mp hk).1
      rw [List.range'_succ, List.foldl_cons] at hstay
      rw [hstay]
      have hwalk : Walks a place (set, changed) (set, changed) := .done hle
      simpa using hwalk

theorem walks_closePass (ha : a.Indexed) (h : set.Tidy)
    (hset : ∀ it ∈ set.items, it.rule < a.rules.length) :
    Walks a 0 (set, false) (closePass a set, decide (closePass a set ≠ set)) := by
  have hplaces : set.items.length + a.rules.length ≤
      0 + (set.items.length + a.rules.length) := (Nat.zero_add _).ge
  have hwalk := walks_foldl ha hset _ (outgrown_refl a h) hplaces false
  rwa [← List.range_eq_range', Bool.false_or] at hwalk

theorem ClosesTo.of_saturates (ha : a.Indexed) (h : Saturates (closePass a) set other)
    (htidy : set.Tidy) (hset : ∀ it ∈ set.items, it.rule < a.rules.length) :
    ClosesTo a set other := by
  induction h with
  | done he =>
    refine .last ?_
    have hwalk := walks_closePass ha htidy hset
    rwa [he, decide_eq_false (not_not_intro rfl)] at hwalk
  | @again set other hne _ ih =>
    have hwalk := walks_closePass ha htidy hset
    rw [decide_eq_true hne] at hwalk
    have houtgrown : Outgrown a set (closePass a set) :=
      closePass_induct (fun _ place hs => hs.closeAt ha place) (outgrown_refl a htidy)
    exact .again hwalk (ih houtgrown.1 (houtgrown.rule_lt hset))

/-! Smaller and larger sets. -/

/-- The item is in the set, perhaps with more terminals ahead. -/
def Covers (set : ItemSet) (it : Item) : Prop := ∃ other ∈ set.items, it.Within other

/-- Every rule and dot of the first set stands in the second, with no fewer terminals ahead. -/
def Below (set other : ItemSet) : Prop := ∀ it ∈ set.items, other.Covers it

/-- The set has the given items and all that its own items predict. -/
structure ClosedOver (a : Analysis) (given set : ItemSet) : Prop where
  given : given.Below set
  predicted : ∀ it ∈ set.items, ∀ x ∈ it.closure a, set.Covers x

theorem Tidy.covers_iff (h : set.Tidy) :
    set.Covers it ↔ ∀ i d ahead, it.Is i d ahead → set.Has i d ahead := by
  constructor
  · rintro ⟨other, hother, hrule, hdot, hfollow⟩ i d ahead ⟨rfl, rfl, his⟩
    exact ⟨other, hother, hrule.symm, hdot.symm, fun t ht => hfollow t (his t ht)⟩
  · intro hall
    obtain ⟨other, hother, hrule, hdot, -⟩ := hall it.rule it.dot none ⟨rfl, rfl, nofun⟩
    refine ⟨other, hother, hrule.symm, hdot.symm, fun t ht => ?_⟩
    have hhas := hall it.rule it.dot (some t) ⟨rfl, rfl, fun s hs => by cases hs; exact ht⟩
    obtain ⟨x, hx, hxrule, hxdot, hxfollow⟩ := hhas
    -- a tidy set has no second item for this rule and dot
    rw [← h.eq_of_position hx hother (hxrule.trans hrule.symm) (hxdot.trans hdot.symm)]
    exact hxfollow t rfl

theorem Tidy.below_iff (h : other.Tidy) :
    set.Below other ↔ ∀ i d ahead, set.Has i d ahead → other.Has i d ahead := by
  constructor
  · rintro hbelow i d ahead ⟨it, hit, his⟩
    exact h.covers_iff.mp (hbelow it hit) i d ahead his
  · intro hall it hit
    exact h.covers_iff.mpr fun i d ahead his => hall i d ahead ⟨it, hit, his⟩

theorem Tidy.same_of_below (h : set.Tidy) (hother : other.Tidy) (hle : set.Below other)
    (hge : other.Below set) : set.same other = true :=
  (h.same_iff hother).mpr fun i d ahead =>
    ⟨hother.below_iff.mp hle i d ahead, h.below_iff.mp hge i d ahead⟩

theorem below_ofList_of_perm {items items' : List Item} (h : items.Perm items') :
    (ofList items).Below (ofList items') := by
  refine (tidy_ofList items').below_iff.mpr fun i d ahead => ?_
  simp only [has_ofList, h.mem_iff]
  exact id

/-! The least closed set. -/

theorem closedOver_close (ha : a.Indexed) (h : given.Tidy) :
    ClosedOver a given (given.close a) where
  given := by
    refine (h.close a).below_iff.mpr fun i d ahead hhas => ?_
    exact close_induct (P := fun s : ItemSet => s.Has i d ahead)
      (fun _ place hs => has_closeAt hs a place) hhas
  predicted it hit x hx := (h.close a).covers_iff.mpr fun _ _ _ his =>
    has_of_add_eq (add_eq_of_fixed (saturates_close_of_indexed ha h).fixed hit hx) his

/-- What a step of a walk adds is in every closed set above. -/
theorem ClosedOver.closeAt (h : ClosedOver a given other) (hother : other.Tidy)
    (hbelow : set.Below other) (place : Nat) : (closeAt a set place).Below other := by
  unfold ItemSet.closeAt
  split
  · exact hbelow
  · rename_i it hit
    refine hother.below_iff.mpr fun i d ahead hhas => ?_
    rcases (has_addAll _ _ _ _ _).mp hhas with hhas | ⟨x, hx, his⟩
    · exact hother.below_iff.mp hbelow i d ahead hhas
    · obtain ⟨above, habove, hwithin⟩ := hbelow it (List.mem_of_getElem? hit)
      obtain ⟨y, hy, hrule, hdot, hfollow⟩ := hwithin.closure hx
      obtain ⟨rfl, rfl, hahead⟩ := his
      exact hother.covers_iff.mp (h.predicted above habove y hy) _ _ ahead
        ⟨hrule.symm, hdot.symm, fun t ht => hfollow t (hahead t ht)⟩

theorem ClosedOver.close_below (h : ClosedOver a given other) (hother : other.Tidy) :
    (given.close a).Below other :=
  close_induct (P := fun s : ItemSet => s.Below other)
    (fun _ place hs => h.closeAt hother hs place) h.given

theorem ClosedOver.of_below {given' : ItemSet} (h : ClosedOver a given set) (hset : set.Tidy)
    (hgiven : given.Tidy) (hbelow : given'.Below given) : ClosedOver a given' set where
  given := hset.below_iff.mpr fun i d ahead hhas =>
    hset.below_iff.mp h.given i d ahead (hgiven.below_iff.mp hbelow i d ahead hhas)
  predicted := h.predicted

/-- In whatever order the items are given, closing comes to the same set. -/
theorem same_close_of_perm (ha : a.Indexed) {items items' : List Item} (h : items'.Perm items) :
    ((ofList items').close a).same ((ofList items).close a) = true := by
  have hle : ∀ {items items' : List Item}, items'.Perm items →
      ((ofList items').close a).Below ((ofList items).close a) := by
    intro items items' h
    have htidy := (tidy_ofList items).close a
    exact ((closedOver_close ha (tidy_ofList items)).of_below htidy (tidy_ofList items)
      (below_ofList_of_perm h)).close_below htidy
  exact ((tidy_ofList items').close a).same_of_below ((tidy_ofList items).close a) (hle h)
    (hle h.symm)

theorem positions_prefix_add (set : ItemSet) (item : Item) :
    set.items.map position <+: (set.add item).items.map position := by
  rw [ItemSet.add, positions_addTo]
  split
  · exact List.prefix_rfl
  · exact List.prefix_append _ _

/-- Closing adds only behind the items that are there. -/
theorem positions_prefix_close (set : ItemSet) (a : Analysis) :
    set.items.map position <+: (set.close a).items.map position := by
  refine close_induct (P := fun s : ItemSet => set.items.map position <+: s.items.map position)
    (fun s place hs => ?_) List.prefix_rfl
  unfold ItemSet.closeAt
  split
  · exact hs
  · exact List.foldlRecOn
      (motive := fun s : ItemSet => set.items.map position <+: s.items.map position)
      _ _ hs fun s hs item _ => hs.trans (positions_prefix_add s item)

end ItemSet

namespace Grammar

open ItemSet

/-- Closing comes to an end, whatever the rules are, and leaves the least closed set. The given
items stay in front and in their order, closing once more changes nothing, and the order in which
the items were given does not matter. -/
theorem close_least {g : Grammar} (hg : g.Built) {items : List Item}
    (hitems : ∀ it ∈ items, it.rule < g.rules.length) :
    ClosesTo g.analysis (ofList items) ((ofList items).close g.analysis) ∧
    ClosedOver g.analysis (ofList items) ((ofList items).close g.analysis) ∧
    (∀ other : ItemSet, other.Tidy → ClosedOver g.analysis (ofList items) other →
      ((ofList items).close g.analysis).Below other) ∧
    (ofList items).items.map position <+:
      ((ofList items).close g.analysis).items.map position ∧
    ((ofList items).close g.analysis).Tidy ∧
    ((ofList items).close g.analysis).close g.analysis = (ofList items).close g.analysis ∧
    ∀ items' : List Item, items'.Perm items →
      ((ofList items').close g.analysis).same ((ofList items).close g.analysis) = true := by
  have ha : g.analysis.Indexed := hg.wellFormed.index
  have htidy := tidy_ofList items
  have hrules : ∀ it ∈ (ofList items).items, it.rule < g.analysis.rules.length :=
    rule_lt_ofList hitems
  have hsaturates := saturates_close_of_indexed ha htidy
  exact ⟨.of_saturates ha hsaturates htidy hrules, closedOver_close ha htidy,
    fun _ hother hclosed => hclosed.close_below hother, positions_prefix_close _ _,
    htidy.close _, saturate_of_fixed hsaturates.fixed _, fun _ => same_close_of_perm ha⟩

/-! The rules `A → B`, `B → A x`, `B → y` and `y → A`. The last one has a terminal on its left, so
that this grammar cannot be configured; sets of its items can be closed all the same. -/

def ringedSymbols : Registry :=
  ⟨Registry.new.symbols ++ [⟨"A", .nonterminal⟩, ⟨"B", .nonterminal⟩, ⟨"x", .terminal 120⟩,
    ⟨"y", .terminal 121⟩]⟩

def ringed : Grammar :=
  [{ id := 1, lhs := 2, rhs := [3] }, { id := 2, lhs := 3, rhs := [2, 4] },
    { id := 3, lhs := 3, rhs := [5] }, { id := 4, lhs := 5, rhs := [2] }].foldl addRule
      ((new ringedSymbols).setStart 2)

theorem ringedSymbols_built : ringedSymbols.Built :=
  Registry.built_of_nodup (by decide) (by decide) (by decide)

theorem ringed_built : ringed.Built := by
  refine .addRule (.addRule (.addRule (.addRule (.setStart (.new ringedSymbols_built) ?_) ?_) ?_) ?_) ?_
  all_goals decide +kernel

def ringedItems : List Item := [⟨0, 0, .single 0⟩, ⟨4, 1, .single 0⟩, ⟨0, 0, .single 5⟩]

/-- The first walk meets `B → A x` behind the rules that its `x` can follow; only the second one
brings it to them. -/
theorem ringed_close_least :
    ringed.Built ∧ ringed.validate ≠ .ok () ∧ (∀ it ∈ ringedItems, it.rule < ringed.rules.length) ∧
    ClosesTo ringed.analysis (ofList ringedItems) ((ofList ringedItems).close ringed.analysis) ∧
    ((ofList ringedItems).close ringed.analysis).items =
      [⟨0, 0, .ofList [0, 5]⟩, ⟨4, 1, .single 0⟩, ⟨1, 0, .ofList [0, 4, 5]⟩,
        ⟨2, 0, .ofList [0, 4, 5]⟩, ⟨3, 0, .ofList [0, 4, 5]⟩] ∧
    ((ofList ringedItems.reverse).close ringed.analysis).same
      ((ofList ringedItems).close ringed.analysis) = true := by
  have hitems : ∀ it ∈ ringedItems, it.rule < ringed.rules.length := by decide
  obtain ⟨hcloses, -, -, -, -, -, hperm⟩ := close_least ringed_built hitems
  exact ⟨ringed_built, by decide +kernel, hitems, hcloses, by decide +kernel,
    hperm _ (List.reverse_perm _)⟩

end Grammar

end CanonicalLR
