import CanonicalLR.Saturate
import Mathlib.Tactic.Common

/-! Saturation ends at a fixed point if a bounded measure grows in every round that changes
something. -/

namespace CanonicalLR

variable {α β : Type}

def Advances (m : α → Nat) (x y : α) : Prop := x = y ∨ m x < m y

theorem Advances.refl (m : α → Nat) (x : α) : Advances m x x := Or.inl rfl

theorem Advances.trans {m : α → Nat} {x y z : α}
    (h : Advances m x y) (h' : Advances m y z) : Advances m x z := by
  rcases h with rfl | h
  · exact h'
  · rcases h' with rfl | h'
    · exact Or.inr h
    · exact Or.inr (Nat.lt_trans h h')

theorem Advances.antisymm {m : α → Nat} {x y : α}
    (h : Advances m x y) (h' : Advances m y x) : x = y := by
  rcases h with rfl | h
  · rfl
  · rcases h' with rfl | h'
    · rfl
    · omega

/-- Nothing is changed in two steps just if neither of them changes anything. -/
theorem Advances.eq_iff {m : α → Nat} {x y z : α}
    (h : Advances m x y) (h' : Advances m y z) : z = x ↔ y = x ∧ z = y := by
  constructor
  · rintro rfl
    have he : z = y := h'.antisymm h |>.symm
    exact ⟨he.symm, he⟩
  · rintro ⟨rfl, rfl⟩
    rfl

theorem Advances.foldl {m : α → Nat} {f : α → β → α} (hf : ∀ x b, Advances m x (f x b))
    (bs : List β) (x : α) : Advances m x (bs.foldl f x) := by
  induction bs generalizing x with
  | nil => exact .refl m x
  | cons b bs ih => exact (hf x b).trans (ih (f x b))

/-- A fold that ends where it began has changed nothing on the way. -/
theorem Advances.of_foldl_eq {m : α → Nat} {f : α → β → α} (hf : ∀ x b, Advances m x (f x b))
    {bs : List β} {x : α} (h : bs.foldl f x = x) : ∀ b ∈ bs, f x b = x := by
  induction bs with
  | nil => simp
  | cons b bs ih =>
    have hback : Advances m (f x b) x := by
      have hh := Advances.foldl hf bs (f x b)
      rwa [show bs.foldl f (f x b) = x from h] at hh
    have hb : f x b = x := hback.antisymm (hf x b)
    have hbs : bs.foldl f x = x := by
      rw [List.foldl_cons, hb] at h
      exact h
    intro c hc
    rcases List.mem_cons.mp hc with rfl | hc
    · exact hb
    · exact ih hbs c hc

variable [DecidableEq α]

theorem Advances.decide_or {m : α → Nat} {x y z : α} (h : Advances m x y) (h' : Advances m y z) :
    (decide (y ≠ x) || decide (z ≠ y)) = decide (z ≠ x) := by
  rw [← Bool.decide_or, decide_eq_decide, ne_eq, ne_eq, ne_eq, ← not_and_or, ← h.eq_iff h']

/-- A fold that notes each change of a step has noted in the end whether anything was changed. -/
theorem Advances.foldl_note {m : α → Nat} {P : α → Prop} {f : α → β → α}
    {note : α × Bool → β → α × Bool} (hf : ∀ x b, Advances m x (f x b)) {bs : List β}
    (hkeeps : ∀ x, P x → ∀ b ∈ bs, P (f x b))
    (hnote : ∀ x changed, P x → ∀ b ∈ bs,
      note (x, changed) b = (f x b, changed || decide (f x b ≠ x)))
    {x : α} (hx : P x) (changed : Bool) :
    bs.foldl note (x, changed) = (bs.foldl f x, changed || decide (bs.foldl f x ≠ x)) := by
  induction bs generalizing x changed with
  | nil => simp
  | cons b bs ih =>
    have hrest := ih (fun x hx c hc => hkeeps x hx c (List.mem_cons_of_mem b hc))
      (fun x changed hx c hc => hnote x changed hx c (List.mem_cons_of_mem b hc))
      (hkeeps x hx b List.mem_cons_self)
    rw [List.foldl_cons, hnote x changed hx b List.mem_cons_self, hrest, List.foldl_cons,
      Bool.or_assoc, (hf x b).decide_or (.foldl hf bs (f x b))]

theorem saturate_induct {P : α → Prop} {step : α → α} (hstep : ∀ x, P x → P (step x))
    (rounds : Nat) {x : α} (hx : P x) : P (saturate step rounds x) := by
  induction rounds generalizing x with
  | zero => exact hx
  | succ rounds ih =>
    simp only [saturate]
    split
    · exact hx
    · exact ih (hstep x hx)

/-- Repeating a step comes to a round that changes nothing, at the second value. -/
inductive Saturates (step : α → α) : α → α → Prop where
  | done {x : α} : step x = x → Saturates step x x
  | again {x y : α} : step x ≠ x → Saturates step (step x) y → Saturates step x y

omit [DecidableEq α] in
theorem Saturates.fixed {step : α → α} {x y : α} (h : Saturates step x y) : step y = y := by
  induction h with
  | done he => exact he
  | again _ _ ih => exact ih

theorem saturate_of_fixed {step : α → α} {x : α} (h : step x = x) (rounds : Nat) :
    saturate step rounds x = x := by
  cases rounds with
  | zero => rfl
  | succ rounds => rw [saturate, if_pos h]

theorem saturates_saturate {m : α → Nat} {P : α → Prop} {step : α → α} {bound : Nat}
    (hstep : ∀ x, P x → P (step x)) (hadv : ∀ x, Advances m x (step x))
    (hbound : ∀ x, P x → m x ≤ bound) {rounds : Nat} {x : α} (hx : P x)
    (hrounds : bound < m x + rounds) : Saturates step x (saturate step rounds x) := by
  induction rounds generalizing x with
  | zero =>
    have := hbound x hx
    omega
  | succ rounds ih =>
    simp only [saturate]
    split
    · rename_i he
      exact .done he
    · rename_i hne
      have hlt : m x < m (step x) := (hadv x).resolve_left fun he => hne he.symm
      exact .again hne (ih (hstep x hx) (by omega))

end CanonicalLR
