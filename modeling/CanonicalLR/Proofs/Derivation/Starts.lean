import CanonicalLR.Proofs.Derivation.Tree

/-! Sequences that derive nothing, terminals that can come first, and symbols that derive some
word. -/

namespace CanonicalLR

def Vanishes (r : Registry) (rules : List Rule) (ids : List SymbolId) : Prop :=
  ∃ trees, Parses r rules trees ids []

inductive Starts (r : Registry) (rules : List Rule) (t : SymbolId) : List SymbolId → Prop where
  | head {rest : List SymbolId} : r.isTerminal t = true → Starts r rules t (t :: rest)
  | rule {rule : Rule} {rest : List SymbolId} :
      rule ∈ rules → Starts r rules t rule.rhs → Starts r rules t (rule.lhs :: rest)
  | skip {s : SymbolId} {rest : List SymbolId} :
      Vanishes r rules [s] → Starts r rules t rest → Starts r rules t (s :: rest)

/-- The terminal can come first if `ahead` stands behind the sequence. -/
def Leads (r : Registry) (rules : List Rule) (t : SymbolId) (ids : List SymbolId)
    (ahead : Option SymbolId) : Prop :=
  Starts r rules t ids ∨ (Vanishes r rules ids ∧ ahead = some t)

def Productive (r : Registry) (rules : List Rule) (ids : List SymbolId) : Prop :=
  ∀ s ∈ ids, ∃ trees word, Parses r rules trees [s] word

variable {r : Registry} {rules : List Rule} {t : SymbolId}

theorem Vanishes.nil : Vanishes r rules [] := ⟨[], .nil⟩

theorem Vanishes.append {a b : List SymbolId} (ha : Vanishes r rules a) (hb : Vanishes r rules b) :
    Vanishes r rules (a ++ b) := by
  obtain ⟨left, hl⟩ := ha
  obtain ⟨right, hr⟩ := hb
  exact ⟨left ++ right, hl.append hr⟩

theorem vanishes_append_iff {a b : List SymbolId} :
    Vanishes r rules (a ++ b) ↔ Vanishes r rules a ∧ Vanishes r rules b := by
  constructor
  · rintro ⟨trees, h⟩
    obtain ⟨left, right, word₁, word₂, -, hw, hl, hr⟩ := h.split
    obtain ⟨rfl, rfl⟩ := List.append_eq_nil_iff.mp hw.symm
    exact ⟨⟨left, hl⟩, ⟨right, hr⟩⟩
  · exact fun h => h.1.append h.2

theorem vanishes_cons_iff {s : SymbolId} {rest : List SymbolId} :
    Vanishes r rules (s :: rest) ↔ Vanishes r rules [s] ∧ Vanishes r rules rest :=
  vanishes_append_iff (a := [s])

theorem Vanishes.of_rule {rule : Rule} (hr : rule ∈ rules) (h : Vanishes r rules rule.rhs) :
    Vanishes r rules [rule.lhs] := by
  obtain ⟨trees, ht⟩ := h
  exact ⟨_, .node hr ht .nil⟩

theorem Starts.isTerminal {ids : List SymbolId} (h : Starts r rules t ids) :
    r.isTerminal t = true := by
  induction h with
  | head ht => exact ht
  | rule _ _ ih => exact ih
  | skip _ _ ih => exact ih

theorem Starts.append_right {ids : List SymbolId} (h : Starts r rules t ids)
    (more : List SymbolId) : Starts r rules t (ids ++ more) := by
  induction h with
  | head ht => exact .head ht
  | rule hr h _ => exact .rule hr h
  | skip hs _ ih => exact .skip hs ih

theorem Starts.append_left {ids : List SymbolId} (h : Starts r rules t ids)
    {before : List SymbolId} (hb : Vanishes r rules before) : Starts r rules t (before ++ ids) := by
  induction before with
  | nil => exact h
  | cons s before ih =>
    obtain ⟨hs, hb⟩ := vanishes_cons_iff.mp hb
    exact .skip hs (ih hb)

theorem Parses.leads {trees : List Tree} {roots word : List SymbolId} {ahead : Option SymbolId}
    (h : Parses r rules trees roots word) (ht : word.head?.or ahead = some t) :
    Leads r rules t roots ahead := by
  induction h generalizing ahead with
  | nil => exact Or.inr ⟨.nil, by simpa using ht⟩
  | leaf hs _ _ =>
    obtain rfl := Option.some.inj (show some _ = some t by simpa using ht)
    exact Or.inl (.head hs)
  | @node rule _ _ below roots word hr hc hrest ihc ih =>
    cases below with
    | nil =>
      have hv : Vanishes r rules [rule.lhs] := .of_rule hr ⟨_, hc⟩
      rcases ih (by simpa using ht) with hs | ⟨hvr, ha⟩
      · exact Or.inl (.skip hv hs)
      · exact Or.inr ⟨hv.append hvr, ha⟩
    | cons s below =>
      have hs : Leads r rules t rule.rhs none := ihc (by simpa using ht)
      rcases hs with hs | ⟨-, ha⟩
      · exact Or.inl (.rule hr hs)
      · cases ha

theorem Starts.of_append {a b : List SymbolId} (h : Starts r rules t (a ++ b)) :
    Starts r rules t a ∨ (Vanishes r rules a ∧ Starts r rules t b) := by
  induction a with
  | nil => exact Or.inr ⟨.nil, h⟩
  | cons s a ih =>
    cases h with
    | head ht => exact Or.inl (.head ht)
    | rule hr h => exact Or.inl (.rule hr h)
    | skip hs h =>
      rcases ih h with h | ⟨hv, h⟩
      · exact Or.inl (.skip hs h)
      · exact Or.inr ⟨vanishes_cons_iff.mpr ⟨hs, hv⟩, h⟩

theorem leads_append_iff {a b : List SymbolId} {ahead : Option SymbolId} :
    Leads r rules t (a ++ b) ahead ↔
      Starts r rules t a ∨ (Vanishes r rules a ∧ Leads r rules t b ahead) := by
  constructor
  · rintro (h | ⟨hv, he⟩)
    · rcases h.of_append with h | ⟨hv, h⟩
      · exact Or.inl h
      · exact Or.inr ⟨hv, Or.inl h⟩
    · obtain ⟨ha, hb⟩ := vanishes_append_iff.mp hv
      exact Or.inr ⟨ha, Or.inr ⟨hb, he⟩⟩
  · rintro (h | ⟨hv, h | ⟨hb, he⟩⟩)
    · exact Or.inl (h.append_right b)
    · exact Or.inl (h.append_left hv)
    · exact Or.inr ⟨hv.append hb, he⟩

theorem Leads.undo {rule : Rule} (hr : rule ∈ rules) {a b : List SymbolId}
    {ahead : Option SymbolId} (h : Leads r rules t (a ++ (rule.rhs ++ b)) ahead) :
    Leads r rules t (a ++ rule.lhs :: b) ahead := by
  rw [leads_append_iff, leads_append_iff] at h
  refine leads_append_iff.mpr (h.imp_right fun ⟨ha, h⟩ => ⟨ha, ?_⟩)
  rcases h with h | ⟨hv, h⟩
  · exact Or.inl (.rule hr h)
  · exact leads_append_iff.mpr (Or.inr ⟨Vanishes.of_rule hr hv, h⟩)

theorem Leads.of_vanishes {a b : List SymbolId} {ahead : Option SymbolId}
    (h : Leads r rules t b ahead) (ha : Vanishes r rules a) : Leads r rules t (a ++ b) ahead :=
  leads_append_iff.mpr (Or.inr ⟨ha, h⟩)

/-! Both are questions about sentential forms. -/

theorem vanishes_iff_derives {ids : List SymbolId} :
    Vanishes r rules ids ↔ Derives rules ids [] := by
  constructor
  · rintro ⟨trees, h⟩
    exact h.derives
  · exact fun h => h.parses .nil

theorem Derives.append {a b : List SymbolId} (h : Derives rules a b)
    (before after : List SymbolId) : Derives rules (before ++ a ++ after) (before ++ b ++ after) :=
  h.lift (fun ids => before ++ ids ++ after) fun _ _ hs => hs.append before after

theorem Starts.derives {ids : List SymbolId} (h : Starts r rules t ids) :
    ∃ rest, Derives rules ids (t :: rest) := by
  induction h with
  | head _ => exact ⟨_, .refl⟩
  | @rule rule rest hr _ ih =>
    obtain ⟨more, hd⟩ := ih
    have hstep : Rewrites rules (rule.lhs :: rest) (rule.rhs ++ rest) := .apply [] rest hr
    exact ⟨more ++ rest, .head hstep (hd.append [] rest)⟩
  | @skip s rest hv _ ih =>
    obtain ⟨more, hd⟩ := ih
    have hgone : Derives rules (s :: rest) rest := (vanishes_iff_derives.mp hv).append [] rest
    exact ⟨more, hgone.trans hd⟩

/-- Rewriting is undone from the last form back to the first. -/
theorem starts_of_derives {ids rest : List SymbolId} (ht : r.isTerminal t = true)
    (h : Derives rules ids (t :: rest)) : Starts r rules t ids := by
  have hleads : Leads r rules t ids none := by
    induction h using Relation.ReflTransGen.head_induction_on with
    | refl => exact Or.inl (.head ht)
    | head hs _ ih =>
      cases hs with
      | apply before after hr =>
        rw [List.append_assoc] at ih
        exact ih.undo hr
  rcases hleads with hs | ⟨-, hnone⟩
  · exact hs
  · cases hnone

theorem starts_iff_derives {ids : List SymbolId} :
    Starts r rules t ids ↔ r.isTerminal t = true ∧ ∃ rest, Derives rules ids (t :: rest) :=
  ⟨fun h => ⟨h.isTerminal, h.derives⟩, fun ⟨ht, _, h⟩ => starts_of_derives ht h⟩

theorem leads_nil {ahead : Option SymbolId} (h : Leads r rules t [] ahead) : ahead = some t := by
  rcases h with h | ⟨-, h⟩
  · cases h
  · exact h

theorem not_vanishes_of_isTerminal (hlhs : ∀ rule ∈ rules, r.isTerminal rule.lhs = false)
    {s : SymbolId} (hs : r.isTerminal s = true) (rest : List SymbolId) :
    ¬ Vanishes r rules (s :: rest) := by
  rintro ⟨trees, h⟩
  generalize hword : ([] : List SymbolId) = word at h
  cases h with
  | leaf => cases hword
  | node hr => simp [hlhs _ hr] at hs

theorem leads_terminal (hlhs : ∀ rule ∈ rules, r.isTerminal rule.lhs = false) {s : SymbolId}
    (hs : r.isTerminal s = true) {rest : List SymbolId} {ahead : Option SymbolId}
    (h : Leads r rules t (s :: rest) ahead) : t = s := by
  rcases h with h | ⟨hv, -⟩
  · cases h with
    | head => rfl
    | rule hr => simp [hlhs _ hr] at hs
    | skip hv => exact absurd hv (not_vanishes_of_isTerminal hlhs hs [])
  · exact absurd hv (not_vanishes_of_isTerminal hlhs hs rest)

theorem Productive.parses {ids : List SymbolId} (h : Productive r rules ids) :
    ∃ trees word, Parses r rules trees ids word := by
  induction ids with
  | nil => exact ⟨[], [], .nil⟩
  | cons s ids ih =>
    obtain ⟨left, word₁, hl⟩ := h s (by simp)
    obtain ⟨right, word₂, hr⟩ := ih fun t ht => h t (by simp [ht])
    exact ⟨left ++ right, word₁ ++ word₂, hl.append hr⟩

theorem Starts.parses {ids : List SymbolId} (h : Starts r rules t ids)
    (hrules : ∀ rule ∈ rules, Productive r rules rule.rhs) (hids : Productive r rules ids) :
    ∃ trees word, Parses r rules trees ids (t :: word) := by
  induction h with
  | head ht =>
    obtain ⟨trees, word, hp⟩ := Productive.parses fun s hs => hids s (List.mem_cons_of_mem _ hs)
    exact ⟨_, word, .leaf ht hp⟩
  | @rule rule rest hr _ ih =>
    obtain ⟨below, word₁, hb⟩ := ih (hrules rule hr)
    obtain ⟨trees, word₂, hp⟩ := Productive.parses fun s hs => hids s (List.mem_cons_of_mem _ hs)
    exact ⟨_, word₁ ++ word₂, .node hr hb hp⟩
  | skip hs _ ih =>
    obtain ⟨left, hl⟩ := hs
    obtain ⟨right, word, hr⟩ := ih fun s hs => hids s (List.mem_cons_of_mem _ hs)
    exact ⟨left ++ right, word, hl.append hr⟩

end CanonicalLR
