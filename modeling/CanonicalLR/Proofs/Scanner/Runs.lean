import CanonicalLR.Proofs.Results
import CanonicalLR.Proofs.Scanner.Tokens

/-! Whole runs of the scanner. Scanning a text comes to an end, and the tokens it gives lie side by
side from the first character to the last. Whatever the calls were, the stack of modes holds
references and the time indices directly inside them. -/

namespace CanonicalLR

/-- From one offset to another, each token begins right behind the one before, and none is empty. -/
inductive Tiles : Nat → List Token → Nat → Prop where
  | nil {place : Nat} : Tiles place [] place
  | cons {t : Token} {ts : List Token} {last : Nat} : t.span.start ≤ t.span.stop →
      Tiles (t.span.stop + 1) ts last → Tiles t.span.start (t :: ts) last

namespace Scanner

variable {s s' last : Scanner} {t : Token} {text : String} {cs : List Char} {mode : Mode}
  {modes : List Mode} {result : Except ParseError (List Token)} {ts : List Token}

/-- Token after token, as `scanAll` asks for them: up to the end token or an error. -/
inductive Collects : Scanner → Except ParseError (List Token) → Scanner → Prop where
  | error {err : ParseError} {s s' : Scanner} : s.next = (.error err, s') →
      Collects s (.error err) s'
  | finish {t : Token} {s s' : Scanner} : s.next = (.ok t, s') → t.isEnd = true →
      Collects s (.ok [t]) s'
  | token {t : Token} {result : Except ParseError (List Token)} {s s' last : Scanner} :
      s.next = (.ok t, s') → t.isEnd = false → Collects s' result last →
      Collects s (result.map (t :: ·)) last

/-- The scanners that calls lead to from a new one, each with the text it was given last. -/
inductive Reached : String → Scanner → Prop where
  | new : Reached "" {}
  | input {text : String} {s : Scanner} (other : String) : Reached text s →
      Reached other (s.setInput other)
  | next {text : String} {s : Scanner} : Reached text s → Reached text s.next.2
  | all {text : String} {s : Scanner} (other : String) : Reached text s →
      Reached other (s.scanAll other).2

/-! Scanning a whole text comes to its end. -/

/-- With more steps than characters the loop ends by itself. -/
theorem collects_drainFrom {fuel : Nat} (hfuel : s.rest.length < fuel) :
    ∃ last, (drainFrom fuel s).getLast?.map Prod.snd = some last ∧
      Collects s (drained fuel s) last := by
  induction fuel generalizing s with
  | zero => exact absurd hfuel (Nat.not_lt_zero _)
  | succ fuel ih =>
    rcases hnext : s.next with ⟨err | t, s'⟩
    · refine ⟨s', ?_, ?_⟩
      · simp only [drainFrom, hnext]
        rfl
      · rw [drained_of_error fuel hnext]
        exact .error hnext
    · rw [drained_of_ok fuel hnext]
      cases hend : t.isEnd with
      | true =>
        refine ⟨s', ?_, .finish hnext hend⟩
        simp only [drainFrom, hnext, hend]
        rfl
      | false =>
        obtain ⟨hlt, -⟩ := length_lt_of_next hnext (rest_ne_nil hnext hend)
        obtain ⟨last, hlast, hcollects⟩ := ih (Nat.lt_of_lt_of_le hlt (Nat.le_of_lt_succ hfuel))
        refine ⟨last, ?_, .token hnext hend hcollects⟩
        obtain ⟨⟨found, after⟩, hfound, rfl⟩ := Option.map_eq_some_iff.mp hlast
        simp only [drainFrom, hnext, hend, Bool.false_eq_true, if_false]
        rw [List.getLast?_cons, hfound]
        rfl

theorem collects_scanAll (s : Scanner) (text : String) :
    Collects (s.setInput text) (s.scanAll text).1 (s.scanAll text).2 := by
  obtain ⟨last, hlast, hcollects⟩ :=
    collects_drainFrom (Nat.lt_succ_self (s.setInput text).rest.length)
  have hstate : (s.scanAll text).2 = last := congrArg (·.getD s) hlast
  rw [hstate]
  exact hcollects

/-- What holds of a scanner whenever it is given a text, and goes on to hold after each token, holds
after all calls. -/
theorem Reached.induct {P : String → Scanner → Prop} (hnew : P "" {})
    (hinput : ∀ text (s : Scanner), P text (s.setInput text)) (hnext : ∀ text s, P text s → P text s.next.2)
    (h : Reached text s) : P text s := by
  have hcollects : ∀ {text s result last}, Collects s result last → P text s → P text last := by
    intro text s result last h
    induction h with
    | error herr | finish herr => exact fun hs => by simpa [herr] using hnext text _ hs
    | token htoken _ _ ih => exact fun hs => ih (by simpa [htoken] using hnext text _ hs)
  induction h with
  | new => exact hnew
  | input other => exact hinput other _
  | next _ ih => exact hnext _ _ ih
  | all other => exact hcollects (collects_scanAll _ other) (hinput other _)

/-! The tokens and the text. -/

/-- What is still to be read is the text from the offset on. -/
structure Placed (text : List Char) (s : Scanner) : Prop where
  le : s.offset ≤ text.length
  rest : s.rest = text.drop s.offset

theorem placed_setInput (s : Scanner) (text : String) : Placed text.toList (s.setInput text) :=
  ⟨Nat.zero_le _, rfl⟩

theorem Placed.next (h : Placed cs s) : Placed cs s.next.2 := by
  rcases hnext : s.next with ⟨err | t, s'⟩
  · obtain ⟨hrest, hoffset, -⟩ := next_error_state hnext
    exact ⟨hoffset ▸ h.le, by rw [hrest, hoffset, h.rest]⟩
  · rcases next_cases hnext with ⟨-, -, -, rfl⟩ | ⟨-, size, -, hsize, -, hrest, hoffset⟩
    · exact h
    · rw [h.rest, List.length_drop] at hsize
      have := h.le
      exact ⟨by rw [hoffset]; omega, by rw [hrest, hoffset, h.rest, List.drop_drop]⟩

theorem Placed.offset_eq (h : Placed cs s) (hrest : s.rest = []) : s.offset = cs.length :=
  le_antisymm h.le (List.drop_eq_nil_iff.mp (h.rest.symm.trans hrest))

theorem Reached.placed (h : Reached text s) : Placed text.toList s :=
  h.induct (P := fun text s => Placed text.toList s) ⟨Nat.zero_le _, rfl⟩
    (fun text s => placed_setInput s text) fun _ _ hs => hs.next

theorem slice_eq {place size : Nat} (hsize : 0 < size) :
    (Span.mk place (place + size - 1)).slice cs = (cs.drop place).take size := by
  have hstop : place + size - 1 + 1 = place + size := by omega
  simp only [Span.slice, hstop, List.take_drop]

theorem Collects.tiles (h : Collects s result last) (hs : Placed cs s) (hresult : result = .ok ts) :
    ∃ front, ts = front ++ [.finish cs.length] ∧ (∀ t ∈ front, t.isEnd = false) ∧
      Tiles s.offset front cs.length ∧ front.flatMap (·.span.slice cs) = s.rest ∧
      last.next = (.ok (.finish cs.length), last) := by
  induction h generalizing ts with
  | error => cases hresult
  | finish hnext hend =>
    cases hresult
    rcases next_cases hnext with ⟨-, hrest, rfl, rfl⟩ | ⟨hend', -⟩
    · have hoffset := hs.offset_eq hrest
      exact ⟨[], by rw [hoffset]; rfl, nofun, hoffset ▸ .nil, hrest.symm, hoffset ▸ hnext⟩
    · cases hend.symm.trans hend'
  | @token t result s s' last hnext hend _ ih =>
    obtain ⟨later, rfl, rfl⟩ := map_ok hresult
    have hplaced : Placed cs s' := by simpa [hnext] using hs.next
    obtain ⟨front, rfl, hfront, htiles, hslices, hlast⟩ := ih hplaced rfl
    rcases next_cases hnext with ⟨hend', -⟩ | ⟨-, size, hpos, -, hspan, hrest, hoffset⟩
    · cases hend.symm.trans hend'
    · refine ⟨t :: front, rfl, List.forall_mem_cons.mpr ⟨hend, hfront⟩, ?_, ?_, hlast⟩
      · have hstart : t.span.start = s.offset := by rw [hspan]
        have hstop : t.span.stop = s.offset + size - 1 := by rw [hspan]
        have hbehind : t.span.stop + 1 = s'.offset := by omega
        rw [← hstart]
        exact .cons (by omega) (hbehind ▸ htiles)
      · rw [List.flatMap_cons, hslices, hspan, slice_eq hpos, ← hs.rest, hrest,
          List.take_append_drop]

/-! The stack of modes. -/

/-- Innermost first: nothing outside of a reference, and time indices only directly inside one. -/
structure Nested (modes : List Mode) : Prop where
  ne_normal : ∀ mode ∈ modes, mode ≠ .normal
  bottom : ∀ mode ∈ modes.getLast?, mode.inReference = true
  time : modes.IsChain fun inner outer => inner = .timeSpec → outer.inReference = true

theorem nested_nil : Nested [] := ⟨nofun, nofun, .nil⟩

theorem ne_of_inReference (h : mode.inReference = true) : mode ≠ .normal ∧ mode ≠ .timeSpec := by
  constructor <;> rintro rfl <;> cases h

theorem Nested.tail (h : Nested (mode :: modes)) : Nested modes where
  ne_normal m hm := h.ne_normal m (List.mem_cons_of_mem _ hm)
  bottom m hm := h.bottom m (by rw [List.getLast?_cons, Option.mem_def.mp hm]; rfl)
  time := h.time.tail

theorem Nested.reference (h : Nested modes) (hmode : mode.inReference = true) :
    Nested (mode :: modes) where
  ne_normal := List.forall_mem_cons.mpr ⟨(ne_of_inReference hmode).1, h.ne_normal⟩
  bottom m hm := by
    cases hlast : modes.getLast? with
    | none =>
      rw [List.getLast?_cons, hlast] at hm
      cases hm
      exact hmode
    | some outer =>
      rw [List.getLast?_cons, hlast] at hm
      cases hm
      exact h.bottom _ hlast
  time := List.isChain_cons.mpr ⟨fun _ _ hm => absurd hm (ne_of_inReference hmode).2, h.time⟩

theorem Nested.timeSpec (h : Nested (mode :: modes)) (hmode : mode.inReference = true) :
    Nested (.timeSpec :: mode :: modes) where
  ne_normal := List.forall_mem_cons.mpr ⟨nofun, h.ne_normal⟩
  bottom m hm := h.bottom m (by rwa [List.getLast?_cons_cons] at hm)
  time := List.isChain_cons_cons.mpr ⟨fun _ => hmode, h.time⟩

theorem Nested.modesAfter (h : Nested modes) (t : Token) : Nested (modesAfter modes t) := by
  unfold Scanner.modesAfter
  split
  · exact h.reference rfl
  · exact h.tail.reference rfl
  · exact h.timeSpec rfl
  · exact h.timeSpec rfl
  · exact h.tail
  · exact h.tail
  · exact h.tail
  · exact h

theorem Nested.next (h : Nested s.modes) : Nested s.next.2.modes := by
  rcases hnext : s.next with ⟨err | t, s'⟩
  · rw [(next_error_state hnext).2.2]
    exact h
  · rcases next_ok hnext with ⟨-, -, rfl⟩ | ⟨-, -, -, -, -, -, hmodes⟩
    · exact h
    · rw [hmodes]
      exact h.modesAfter t

theorem Reached.nested (h : Reached text s) : Nested s.modes :=
  h.induct (P := fun _ s => Nested s.modes) nested_nil (fun _ _ => nested_nil) fun _ _ hs => hs.next

/-- Scanning loses nothing of a text and invents nothing. -/
theorem scanAll_tiles :
    (∀ (s : Scanner) (text : String),
      Collects (s.setInput text) (s.scanAll text).1 (s.scanAll text).2 ∧
      ∀ ts, (s.scanAll text).1 = .ok ts → ∃ front, ts = front ++ [.finish text.length] ∧
        (∀ t ∈ front, t.isEnd = false) ∧ Tiles 0 front text.length ∧
        front.flatMap (·.span.slice text.toList) = text.toList ∧
        (s.scanAll text).2.next = (.ok (.finish text.length), (s.scanAll text).2)) ∧
    ∀ text s, Reached text s → Nested s.modes :=
  ⟨fun s text => ⟨collects_scanAll s text, fun _ hts =>
    (collects_scanAll s text).tiles (placed_setInput s text) hts⟩, fun _ _ h => h.nested⟩

/-- A rewind leaves no gap, and what closes nothing leaves the stack as it is. -/
theorem unclosed_scanAll_tiles : ∃ front,
    (({} : Scanner).scanAll "3e+<x[>").1 = .ok (front ++ [.finish 7]) ∧ Tiles 0 front 7 ∧
    front.map (·.span.start) = [0, 1, 2, 3, 4, 5, 6] ∧
    front.flatMap (·.span.slice "3e+<x[>".toList) = "3e+<x[>".toList ∧
    (({} : Scanner).scanAll "3e+<x[>").2.modes = [.timeSpec, .bracket] ∧
    Nested [.timeSpec, .bracket] := by
  obtain ⟨hscans, hnested⟩ := scanAll_tiles
  have hscan : (({} : Scanner).scanAll "3e+<x[>").1 = .ok [⟨⟨0, 0⟩, TokenKind.int.type, .int 3⟩,
      ⟨⟨1, 1⟩, TokenKind.ident.type, .ident "e"⟩, .punct ⟨2, 2⟩ '+', .punct ⟨3, 3⟩ '<',
      ⟨⟨4, 4⟩, TokenKind.ident.type, .ident "x"⟩, .punct ⟨5, 5⟩ '[', .punct ⟨6, 6⟩ '>',
      .finish 7] := rfl
  obtain ⟨front, hfront, -, htiles, hslices, -⟩ := (hscans {} "3e+<x[>").2 _ hscan
  have hmodes : (({} : Scanner).scanAll "3e+<x[>").2.modes = [.timeSpec, .bracket] := rfl
  refine ⟨front, hscan.trans (congrArg _ hfront), htiles, ?_, hslices, hmodes, ?_⟩
  · have hplaces := congrArg (fun ts => ts.dropLast.map fun t : Token => t.span.start) hfront
    rw [List.dropLast_concat] at hplaces
    exact hplaces.symm
  · rw [← hmodes]
    exact hnested _ _ (.all _ .new)

end Scanner

end CanonicalLR
