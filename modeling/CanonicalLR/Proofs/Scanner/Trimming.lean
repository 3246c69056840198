import CanonicalLR.Proofs.Parser.Positions
import CanonicalLR.Proofs.Scanner.Lexical
import CanonicalLR.Proofs.Scanner.Runs
import CanonicalLR.Proofs.Scanner.Spacing

/-! Blanks at the ends of a text. Blank tokens are made of blanks, and of the others only strings
hold any, so the tokens between the first and the last that is not blank reach from the first
character of the text that is not blank to the last. -/

namespace CanonicalLR

variable {t : Token} {tokens ts : List Token} {place : Span} {lo hi i : Nat}

/-! Tokens side by side. -/

namespace Tiles

theorem bounds (h : Tiles lo ts hi) : lo ≤ hi ∧ ∀ t ∈ ts, lo ≤ t.span.start ∧
    t.span.start ≤ t.span.stop ∧ t.span.stop < hi := by
  induction h with
  | nil => exact ⟨le_rfl, nofun⟩
  | cons hle _ ih =>
    refine ⟨by omega, List.forall_mem_cons.mpr ⟨⟨le_rfl, hle, by omega⟩, fun t ht => ?_⟩⟩
    obtain ⟨hstart, hforward, hstop⟩ := ih.2 t ht
    exact ⟨by omega, hforward, hstop⟩

theorem pairwise (h : Tiles lo ts hi) : ts.Pairwise fun t t' => t.span.Before t'.span := by
  induction h with
  | nil => exact .nil
  | cons _ hrest ih =>
    exact List.pairwise_cons.mpr ⟨fun t ht => (hrest.bounds.2 t ht).1, ih⟩

theorem exists_at (h : Tiles lo ts hi) (hlo : lo ≤ i) (hhi : i < hi) :
    ∃ t ∈ ts, t.span.start ≤ i ∧ i ≤ t.span.stop := by
  induction h with
  | nil => exact absurd hhi (Nat.not_lt.mpr hlo)
  | @cons t ts last _ _ ih =>
    rcases Nat.lt_or_ge t.span.stop i with hlt | hge
    · obtain ⟨t', ht', hbounds⟩ := ih hlt hhi
      exact ⟨t', List.mem_cons_of_mem _ ht', hbounds⟩
    · exact ⟨t, List.mem_cons_self, hlo, hge⟩

theorem inOrder_filter (h : Tiles lo ts hi) (p : Token → Bool) : InOrder (ts.filter p) where
  forward t ht := (h.bounds.2 t (List.mem_of_mem_filter ht)).2.1
  apart := (h.pairwise.filter p).isChain

end Tiles

namespace InOrder

theorem exists_extent (h : InOrder tokens) (hne : tokens ≠ []) :
    ∃ place, Extent tokens (tokens.map (·.span)) place := by
  induction tokens with
  | nil => exact absurd rfl hne
  | cons t tokens ih =>
    have hsingle : rangeOf? [t] = some t.span := rfl
    cases tokens with
    | nil => exact ⟨t.span, .single hsingle⟩
    | cons t' tokens =>
      have hwhole : InOrder ([t] ++ t' :: tokens) := h
      obtain ⟨place, hextent⟩ := ih hwhole.right (List.cons_ne_nil _ _)
      exact ⟨_, .cons hsingle hextent hwhole⟩

theorem within (h : InOrder tokens) (hrange : rangeOf? tokens = some place) (ht : t ∈ tokens) :
    t.span.Within place := by
  obtain ⟨place', hextent⟩ := h.exists_extent (List.ne_nil_of_mem ht)
  obtain rfl := Option.some.inj (hrange.symm.trans hextent.range)
  exact hextent.within _ (List.mem_map_of_mem ht)

end InOrder

namespace Scanner

open Text (isBlank isBlank_of_isAlpha isBlank_of_isDigit)

variable {s : Scanner} {text : String} {cs : List Char} {mode : Mode} {lexeme : Lexeme} {c : Char}
  {span : Span}

/-! Characters of tokens. -/

theorem mem_slice (hc : cs[i]? = some c) (hstart : span.start ≤ i) (hstop : i ≤ span.stop) :
    c ∈ span.slice cs := by
  refine List.mem_of_getElem? (i := i - span.start) ?_
  rw [Span.slice, List.getElem?_drop, Nat.add_sub_cancel' hstart,
    List.getElem?_take_of_lt (Nat.lt_succ_of_le hstop), hc]

theorem isBlank_of_mem_blankChars (h : c ∈ blankChars) : isBlank c = true := by
  have hall : blankChars.all isBlank = true := rfl
  exact List.all_eq_true.mp hall c h

theorem isBlank_of_nameRest (h : nameRest mode c = true) : isBlank c = false := by
  simp only [nameRest, Bool.or_eq_true, Bool.and_eq_true, decide_eq_true_eq] at h
  rcases h with (((halpha | rfl) | hdigit) | rfl) | ⟨-, rfl | rfl⟩
  · exact isBlank_of_isAlpha halpha
  · rfl
  · exact isBlank_of_isDigit hdigit
  · rfl
  · rfl
  · rfl

theorem isBlank_of_power {e : Int} (h : Decimal.Power cs e) : ∀ c ∈ cs, isBlank c = false := by
  have hdigits : ∀ {ds : List Char}, Decimal.AllDigits ds → ∀ c ∈ ds, isBlank c = false :=
    fun hds c hc => isBlank_of_isDigit (hds.digit c hc)
  have hmark : ∀ {mark : Char}, mark = 'e' ∨ mark = 'E' → isBlank mark = false := by
    rintro mark (rfl | rfl) <;> rfl
  cases h with
  | none => exact List.forall_mem_nil _
  | plain hm hds => exact List.forall_mem_cons.mpr ⟨hmark hm, hdigits hds⟩
  | plus hm hds | minus hm hds =>
    exact List.forall_mem_cons.mpr ⟨hmark hm, List.forall_mem_cons.mpr ⟨rfl, hdigits hds⟩⟩

theorem isBlank_of_fractional {v : ℚ} (h : Decimal.Fractional cs v) :
    ∀ c ∈ cs, isBlank c = false := by
  have hdigits : ∀ {ds : List Char}, (∀ c ∈ ds, c.isDigit = true) → ∀ c ∈ ds, isBlank c = false :=
    fun hds c hc => isBlank_of_isDigit (hds c hc)
  cases h with
  | point hwhole hfraction hpower =>
    exact List.forall_mem_append.mpr ⟨hdigits hwhole.digit, List.forall_mem_cons.mpr ⟨rfl,
      List.forall_mem_append.mpr ⟨hdigits hfraction, isBlank_of_power hpower⟩⟩⟩
  | bare hfraction hpower =>
    exact List.forall_mem_cons.mpr ⟨rfl, List.forall_mem_append.mpr
      ⟨hdigits hfraction.digit, isBlank_of_power hpower⟩⟩
  | whole hwhole _ hpower =>
    exact List.forall_mem_append.mpr ⟨hdigits hwhole.digit, isBlank_of_power hpower⟩

/-- Of the lexemes only blanks and strings hold blanks, in the sense of Unicode. -/
theorem Lexical.isBlank_eq_false (h : Lexical mode lexeme cs) (hblank : lexeme ≠ .blank)
    (hstring : lexeme ≠ .string) : ∀ c ∈ cs, isBlank c = false := by
  cases h with
  | ident hfirst hcs =>
    exact List.forall_mem_cons.mpr ⟨isBlank_of_nameRest (nameRest_of_nameStart hfirst),
      fun c hc => isBlank_of_nameRest (hcs c hc)⟩
  | int hds => exact fun c hc => isBlank_of_isDigit (hds.digit c hc)
  | float _ hcs => exact isBlank_of_fractional hcs
  | string => exact absurd rfl hstring
  | blank => exact absurd rfl hblank
  | symbol hsymbol =>
    have hall : symbolChars.all (fun c => !isBlank c) = true := rfl
    exact List.forall_mem_singleton.mpr (by simpa using List.all_eq_true.mp hall _ hsymbol)
  | mark _ hmark =>
    refine List.forall_mem_singleton.mpr ?_
    rcases hmark with rfl | rfl | rfl <;> rfl

theorem type_of_string (h : token span cs .string = .ok t) : t.type = TokenKind.str.type := by
  cases h
  rfl

theorem lexeme_of_isTrivia (hlexeme : lexeme? mode cs = some lexeme)
    (h : token span cs lexeme = .ok t) : t.isTrivia = true ↔ lexeme = .blank := by
  cases lexeme with
  | punct =>
    obtain ⟨c, rfl, hc⟩ := exists_of_lexeme?_punct hlexeme
    cases h
    have hne := beq_false_of_ne (type_punct_ne span .whitespace hc)
    exact iff_of_false (fun ht => Bool.false_ne_true (hne.symm.trans ht)) (by decide)
  | blank =>
    cases h
    exact iff_of_true rfl rfl
  | string =>
    cases h
    exact iff_of_false Bool.false_ne_true (by decide)
  | ident =>
    cases h
    rw [identToken]
    split_ifs <;> exact iff_of_false Bool.false_ne_true (by decide)
  | int =>
    simp only [token, intToken] at h
    split at h <;> cases h
    exact iff_of_false Bool.false_ne_true (by decide)
  | float =>
    simp only [token, floatToken] at h
    split at h <;> cases h
    exact iff_of_false Bool.false_ne_true (by decide)

theorem isBlank_of_delivers (h : Delivers source ts s) (hs : Placed cs s) : ∀ t ∈ ts,
    (t.isTrivia = true → ∀ c ∈ t.span.slice cs, isBlank c = true) ∧
      (t.isTrivia = false → t.type ≠ TokenKind.str.type →
        ∀ c ∈ t.span.slice cs, isBlank c = false) := by
  induction h with
  | finish => exact nofun
  | @token t ts s s' hnext hend _ ih =>
    have hplaced : Placed cs s' := by simpa [show s.next = _ from hnext] using hs.next
    refine List.forall_mem_cons.mpr ⟨?_, ih hplaced⟩
    rcases next_ok hnext with ⟨-, rfl, -⟩ | ⟨size, lexeme, hbest, htoken, -⟩
    · cases hend
    · obtain ⟨-, hlexeme, -⟩ := best_munch_iff.mp hbest
      have hlexical := lexeme?_iff.mp hlexeme
      have hslice : t.span.slice cs = s.rest.take size := by
        rw [span_of_token htoken, slice_eq (pos_of_lexeme? hlexeme), hs.rest]
      rw [hslice, lexeme_of_isTrivia hlexeme htoken, ← Bool.not_eq_true,
        lexeme_of_isTrivia hlexeme htoken]
      constructor
      · rintro rfl
        cases hlexical with
        | blank _ hcs => exact fun c hc => isBlank_of_mem_blankChars (hcs c hc)
      · intro hblank htype
        refine hlexical.isBlank_eq_false hblank ?_
        rintro rfl
        exact htype (type_of_string htoken)

/-! The ends of a text. -/

/-- The place reaches from the first character that is not blank to the last. -/
structure Trims (cs : List Char) (place : Span) : Prop where
  first : ∃ c, cs[place.start]? = some c ∧ isBlank c = false
  last : ∃ c, cs[place.stop]? = some c ∧ isBlank c = false
  within : ∀ i c, cs[i]? = some c → isBlank c = false → place.start ≤ i ∧ i ≤ place.stop

theorem collects_of_delivers (h : Delivers source ts s) :
    ∃ last final, Collects s (.ok (ts ++ [last])) final := by
  induction h with
  | finish hnext hend => exact ⟨_, _, .finish hnext hend⟩
  | token hnext hend _ ih =>
    obtain ⟨last, final, hcollects⟩ := ih
    exact ⟨last, final, .token hnext hend hcollects⟩

theorem tiles_of_delivers (h : Delivers source ts (s.setInput text)) :
    Tiles 0 ts text.toList.length := by
  obtain ⟨last, final, hcollects⟩ := collects_of_delivers h
  obtain ⟨front, hfront, -, htiles, -⟩ := hcollects.tiles (placed_setInput s text) rfl
  obtain ⟨rfl, -⟩ := List.append_inj' hfront rfl
  exact htiles

/-- Without strings, the solid tokens of a text reach from its first character that is not blank to
the last. -/
theorem trims_of_delivers (h : Delivers source ts (s.setInput text))
    (hrange : rangeOf? (solid ts) = some place)
    (hsolid : ∀ t ∈ solid ts, t.type ≠ TokenKind.str.type) : Trims text.toList place := by
  have htiles := tiles_of_delivers h
  have hblank := isBlank_of_delivers h (placed_setInput s text)
  have hat : ∀ t ∈ solid ts, ∀ i, t.span.start ≤ i → i ≤ t.span.stop →
      ∃ c, text.toList[i]? = some c ∧ isBlank c = false := by
    intro t ht i hstart hstop
    obtain ⟨hmem, htrivia⟩ := List.mem_filter.mp ht
    obtain ⟨-, -, hlt⟩ := htiles.bounds.2 t hmem
    have hget := List.getElem?_eq_getElem (Nat.lt_of_le_of_lt hstop hlt)
    exact ⟨_, hget, (hblank t hmem).2 (by simpa using htrivia) (hsolid t ht) _
      (mem_slice hget hstart hstop)⟩
  have hinorder : InOrder (solid ts) := htiles.inOrder_filter _
  obtain ⟨first, hfirst, hlast⟩ := Option.bind_eq_some_iff.mp hrange
  obtain ⟨last, hlast, hplace⟩ := Option.map_eq_some_iff.mp hlast
  have hfirstmem := List.mem_of_head? hfirst
  have hlastmem := List.mem_of_getLast? hlast
  refine ⟨?_, ?_, fun i c hc hnot => ?_⟩
  · rw [← hplace]
    exact hat first hfirstmem _ le_rfl (hinorder.forward first hfirstmem)
  · rw [← hplace]
    exact hat last hlastmem _ (hinorder.forward last hlastmem) le_rfl
  · obtain ⟨t, ht, hstart, hstop⟩ :=
      htiles.exists_at (Nat.zero_le i) (List.getElem?_eq_some_iff.mp hc).1
    have htrivia : t.isTrivia = false := by
      by_contra htrivia
      have hyes := (hblank t ht).1 (by simpa using htrivia) c (mem_slice hc hstart hstop)
      cases hyes.symm.trans hnot
    obtain ⟨hbefore, hbehind⟩ :=
      hinorder.within hrange (List.mem_filter.mpr ⟨ht, by simp [htrivia]⟩)
    exact ⟨hbefore.trans hstart, hstop.trans hbehind⟩

end Scanner

end CanonicalLR
