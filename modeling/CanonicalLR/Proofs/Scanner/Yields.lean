import CanonicalLR.Proofs.Scanner.Tokens

/-! What the scanner yields, token by token, with the modes in which it comes to them. The tokens
alone say how the modes change, and blanks do not change them. -/

namespace CanonicalLR.Scanner

open Engine

/-! The modes that the scanner goes through. -/

/-- The modes in which things are met that change them one after the other. -/
def modesAlong {α : Type} (after : List Mode → α → List Mode) : List Mode → List α → List Mode
  | _, [] => []
  | modes, x :: xs => modes.headD .normal :: modesAlong after (after modes x) xs

theorem modesAlong_append {α : Type} (after : List Mode → α → List Mode) (modes : List Mode)
    (xs ys : List α) : modesAlong after modes (xs ++ ys) =
      modesAlong after modes xs ++ modesAlong after (xs.foldl after modes) ys := by
  induction xs generalizing modes with
  | nil => rfl
  | cons x xs ih => exact congrArg _ (ih (after modes x))

theorem length_modesAlong {α : Type} (after : List Mode → α → List Mode) (modes : List Mode)
    (xs : List α) : (modesAlong after modes xs).length = xs.length := by
  induction xs generalizing modes with
  | nil => rfl
  | cons x xs ih => exact congrArg _ (ih (after modes x))

/-! Tokens with the modes in which they are scanned. -/

/-- Between the two states the scanner yields the tokens, each in the mode beside it. -/
inductive Yields : Scanner → List (Token × Mode) → Scanner → Prop where
  | nil {s : Scanner} : Yields s [] s
  | cons {s s' last : Scanner} {t : Token} {scan : List (Token × Mode)} : s.next = (.ok t, s') →
      Yields s' scan last → Yields s ((t, s.mode) :: scan) last

variable {first last s₁ s₂ : Scanner} {t : Token} {ts : List Token} {scan : List (Token × Mode)}

theorem modes_of_next (hnext : s₁.next = (.ok t, s₂)) : s₂.modes = modesAfter s₁.modes t := by
  rcases next_ok hnext with ⟨-, rfl, rfl⟩ | ⟨-, -, -, -, -, -, hmodes⟩
  · exact (modesAfter_of_isEnd rfl _).symm
  · exact hmodes

theorem Yields.concat (h : Yields first scan s₁) (hnext : s₁.next = (.ok t, s₂)) :
    Yields first (scan ++ [(t, s₁.mode)]) s₂ := by
  induction h with
  | nil => exact .cons hnext .nil
  | cons hfirst _ ih => exact .cons hfirst (ih hnext)

theorem exists_yields_of_taken (h : Taken source first ts last) :
    ∃ scan, scan.map (·.1) = ts ∧ Yields first scan last := by
  induction h with
  | none => exact ⟨[], rfl, .nil⟩
  | next _ hnext ih =>
    obtain ⟨scan, rfl, hscan⟩ := ih
    exact ⟨_, by simp, hscan.concat hnext⟩

theorem Yields.along (h : Yields first scan last) :
    scan.map (·.2) = modesAlong modesAfter first.modes (scan.map (·.1)) ∧
      last.modes = (scan.map (·.1)).foldl modesAfter first.modes := by
  induction h with
  | nil => exact ⟨rfl, rfl⟩
  | cons hnext _ ih =>
    obtain ⟨halong, hlast⟩ := ih
    rw [modes_of_next hnext] at halong hlast
    exact ⟨congrArg _ halong, hlast⟩

/-- A blank is scanned in the mode of the token behind it. -/
theorem Yields.blanks (h : Yields first scan last) :
    scan.IsChain fun x y => x.1.isTrivia = true → x.2 = y.2 := by
  induction h with
  | nil => exact .nil
  | cons hnext hrest ih =>
    cases hrest with
    | nil => exact .singleton _
    | cons hnext' hrest' =>
      refine .cons_cons (fun htrivia => ?_) ih
      rw [mode, mode, modes_of_next hnext, modesAfter_of_isTrivia htrivia]

/-- The tokens that are not blank. -/
def solidScan (scan : List (Token × Mode)) : List (Token × Mode) :=
  scan.filter fun x => !x.1.isTrivia

theorem solidScan_cons_of_isTrivia (h : t.isTrivia = true) (mode : Mode)
    (scan : List (Token × Mode)) : solidScan ((t, mode) :: scan) = solidScan scan :=
  List.filter_cons_of_neg (by simp [h])

theorem solidScan_cons (h : t.isTrivia = false) (mode : Mode) (scan : List (Token × Mode)) :
    solidScan ((t, mode) :: scan) = (t, mode) :: solidScan scan :=
  List.filter_cons_of_pos (by simp [h])

theorem solidScan_fst (scan : List (Token × Mode)) :
    (solidScan scan).map (·.1) = solid (scan.map (·.1)) := by
  rw [solid, List.filter_map]
  rfl

theorem solidScan_snd {modes : List Mode}
    (h : scan.map (·.2) = modesAlong modesAfter modes (scan.map (·.1))) :
    (solidScan scan).map (·.2) = modesAlong modesAfter modes (solid (scan.map (·.1))) ∧
      (solid (scan.map (·.1))).foldl modesAfter modes =
        (scan.map (·.1)).foldl modesAfter modes := by
  induction scan generalizing modes with
  | nil => exact ⟨rfl, rfl⟩
  | cons x scan ih =>
    obtain ⟨hmode, hrest⟩ : x.2 = modes.headD .normal ∧ _ := List.cons.inj h
    obtain ⟨halong, hfold⟩ := ih hrest
    by_cases htrivia : x.1.isTrivia = true
    · have hskip : solid ((x :: scan).map (·.1)) = solid (scan.map (·.1)) := by
        rw [List.map_cons, solid, List.filter_cons_of_neg (by simp [htrivia])]
        rfl
      rw [modesAfter_of_isTrivia htrivia] at halong hfold
      rw [hskip, solidScan_cons_of_isTrivia htrivia]
      refine ⟨halong, hfold.trans ?_⟩
      rw [List.map_cons, List.foldl_cons, modesAfter_of_isTrivia htrivia]
    · have hkeep : solid ((x :: scan).map (·.1)) = x.1 :: solid (scan.map (·.1)) := by
        rw [List.map_cons, solid, List.filter_cons_of_pos (by simpa using htrivia)]
        rfl
      rw [hkeep, solidScan_cons (Bool.eq_false_iff.mpr htrivia)]
      refine ⟨?_, hfold⟩
      rw [List.map_cons, modesAlong, hmode]
      exact congrArg _ halong

end CanonicalLR.Scanner
