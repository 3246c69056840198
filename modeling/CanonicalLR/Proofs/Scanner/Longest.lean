import CanonicalLR.Scanner.Basic
import Mathlib.Data.Nat.Find
import Mathlib.Tactic.Common

/-! The longest lexeme at the front of a text. A lexeme is what leads the automaton from its start
to a phase that accepts; of all prefixes of the text that are lexemes the scanner takes the longest
one. -/

namespace CanonicalLR.Scanner

variable {mode : Mode} {phase : Phase} {text : List Char} {n : Nat} {lexeme : Lexeme}

/-- Where the characters lead to, if the automaton gets that far. -/
def Phase.follow (mode : Mode) : Phase → List Char → Option Phase
  | phase, [] => some phase
  | phase, c :: cs => (phase.next (mode.classify c)).bind fun phase => phase.follow mode cs

/-- What the characters are as a whole from a phase on. -/
def Phase.reads (mode : Mode) (phase : Phase) (cs : List Char) : Option Lexeme :=
  (phase.follow mode cs).bind Phase.accepts

def lexeme? (mode : Mode) (cs : List Char) : Option Lexeme := Phase.start.reads mode cs

theorem Phase.follow_append (mode : Mode) (phase : Phase) (front back : List Char) :
    phase.follow mode (front ++ back) =
      (phase.follow mode front).bind fun phase => phase.follow mode back := by
  induction front generalizing phase with
  | nil => rfl
  | cons c cs ih =>
    simp only [List.cons_append, follow, Option.bind_assoc]
    exact congrArg _ (funext ih)

theorem Phase.reads_cons (mode : Mode) (phase : Phase) (c : Char) (cs : List Char) :
    phase.reads mode (c :: cs) =
      (phase.next (mode.classify c)).bind fun phase => phase.reads mode cs := by
  simp only [reads, follow, Option.bind_assoc]

theorem munchFrom_cons {next : Phase} {c : Char} {rest : List Char}
    (h : phase.next (mode.classify c) = some next) (m : Munch) :
    munchFrom mode phase m (c :: rest) =
      munchFrom mode next ⟨m.taken + 1, (next.accepts.map (m.taken + 1, ·)).or m.best⟩ rest := by
  rw [munchFrom, h]
  cases hnext : next.accepts <;> simp [hnext]

theorem best_munchFrom_of_none (m : Munch)
    (hnone : ∀ k, 0 < k → k ≤ text.length → phase.reads mode (text.take k) = none) :
    (munchFrom mode phase m text).best = m.best := by
  induction text generalizing phase m with
  | nil => rfl
  | cons c rest ih =>
    cases hnext : phase.next (mode.classify c) with
    | none => simp [munchFrom, hnext]
    | some next =>
      have hrest : ∀ k, k ≤ rest.length → next.reads mode (rest.take k) = none := by
        intro k hk
        have := hnone (k + 1) (Nat.succ_pos k) (Nat.succ_le_succ hk)
        rwa [List.take_succ_cons, Phase.reads_cons, hnext] at this
      have haccepts : next.accepts = none := hrest 0 (Nat.zero_le _)
      rw [munchFrom_cons hnext, ih _ fun k _ hk => hrest k hk, haccepts]
      rfl

theorem best_munchFrom (m : Munch) (hpos : 0 < n) (hn : n ≤ text.length)
    (hreads : phase.reads mode (text.take n) = some lexeme)
    (hlast : ∀ k, n < k → k ≤ text.length → phase.reads mode (text.take k) = none) :
    (munchFrom mode phase m text).best = some (m.taken + n, lexeme) := by
  induction text generalizing phase m n with
  | nil => exact absurd hn (Nat.not_le.mpr hpos)
  | cons c rest ih =>
    obtain ⟨k, rfl⟩ := Nat.exists_eq_add_one.mpr hpos
    rw [List.take_succ_cons, Phase.reads_cons] at hreads
    obtain ⟨next, hnext, hreads⟩ := Option.bind_eq_some_iff.mp hreads
    have hrest : ∀ j, k < j → j ≤ rest.length → next.reads mode (rest.take j) = none := by
      intro j hj hle
      have := hlast (j + 1) (Nat.succ_lt_succ hj) (Nat.succ_le_succ hle)
      rwa [List.take_succ_cons, Phase.reads_cons, hnext] at this
    rw [munchFrom_cons hnext]
    cases k with
    | zero =>
      have haccepts : next.accepts = some lexeme := hreads
      rw [best_munchFrom_of_none _ hrest, haccepts]
      rfl
    | succ k =>
      rw [ih _ (Nat.succ_pos k) (Nat.le_of_succ_le_succ hn) hreads hrest]
      exact congrArg (fun size => some (size, lexeme)) (Nat.add_right_comm m.taken 1 (k + 1))

theorem pos_of_lexeme? (h : lexeme? mode (text.take n) = some lexeme) : 0 < n := by
  rcases Nat.eq_zero_or_pos n with rfl | hpos
  · cases h
  · exact hpos

theorem best_munch (hn : n ≤ text.length) (hreads : lexeme? mode (text.take n) = some lexeme)
    (hlast : ∀ k, n < k → k ≤ text.length → lexeme? mode (text.take k) = none) :
    (munch mode text).best = some (n, lexeme) := by
  rw [munch, best_munchFrom _ (pos_of_lexeme? hreads) hn hreads hlast, Nat.zero_add]

theorem exists_longest (hn : n ≤ text.length) (hreads : lexeme? mode (text.take n) ≠ none) :
    ∃ k lexeme, k ≤ text.length ∧ lexeme? mode (text.take k) = some lexeme ∧
      ∀ j, k < j → j ≤ text.length → lexeme? mode (text.take j) = none := by
  have hlongest := Nat.findGreatest_spec (P := fun k => lexeme? mode (text.take k) ≠ none) hn hreads
  obtain ⟨lexeme, hlexeme⟩ := Option.ne_none_iff_exists'.mp hlongest
  exact ⟨_, lexeme, Nat.findGreatest_le _, hlexeme, fun j hj hle => not_not.mp
    (Nat.findGreatest_is_greatest (P := fun k => lexeme? mode (text.take k) ≠ none) hj hle)⟩

/-- The best lexeme is the longest prefix of the text that is one. -/
theorem best_munch_iff : (munch mode text).best = some (n, lexeme) ↔
    n ≤ text.length ∧ lexeme? mode (text.take n) = some lexeme ∧
      ∀ k, n < k → k ≤ text.length → lexeme? mode (text.take k) = none := by
  constructor
  · intro h
    by_cases hany : ∃ k, k ≤ text.length ∧ lexeme? mode (text.take k) ≠ none
    · obtain ⟨k, hk, hreads⟩ := hany
      obtain ⟨size, found, hsize, hfound, hlast⟩ := exists_longest hk hreads
      rw [best_munch hsize hfound hlast, Option.some.injEq, Prod.mk.injEq] at h
      obtain ⟨rfl, rfl⟩ := h
      exact ⟨hsize, hfound, hlast⟩
    · push Not at hany
      rw [munch, best_munchFrom_of_none _ fun k _ hk => hany k hk] at h
      exact absurd h (by simp)
  · rintro ⟨hn, hreads, hlast⟩
    exact best_munch hn hreads hlast

end CanonicalLR.Scanner
