import CanonicalLR.Proofs.Calculator.Reparsing
import CanonicalLR.Proofs.Calculator.Scanned

/-! Expressions that are printed and parsed again. What a parser makes of a text can be told apart
again where it is printed, so the same expression comes back, in other places of another text. -/

namespace CanonicalLR.Calculator

open Scanner

variable {p : Int} {g : Grammar} {n : Expr} {fuel : Nat} {q q' : Parser Scanner Nat} {text : String}

theorem Calculates.exists_delivers (h : Calculates p (engine g))
    (hparse : (engine g).parse fuel q text = some (.ok n, q')) :
    ∃ ts, Delivers source ts (q.source.setInput text) ∧ read p (solid ts) = some n := by
  rcases delivers_or_breaks (q.source.setInput text) with ⟨ts, hts⟩ | hbreaks
  · exact ⟨ts, hts, (h.result_of_delivers hparse hts).symm⟩
  · exact absurd hparse (h.not_ok_of_breaks hbreaks)

theorem Calculates.proper (h : Calculates p (engine g))
    (hparse : (engine g).parse fuel q text = some (.ok n, q')) : n.Proper := by
  obtain ⟨ts, hts, hread⟩ := h.exists_delivers hparse
  exact proper_of_read (scanned_of_delivers hts).solid hread

/-- What the reader makes of the tokens of a text is what the parser accepts. -/
theorem Calculates.exists_parse (h : Calculates p (engine g)) {ts : List Token}
    (hts : Delivers source ts (q.source.setInput text)) (hread : read p (solid ts) = some n) :
    ∃ fuel q', (engine g).parse fuel q text = some (.ok n, q') := by
  obtain ⟨supplied, hsupplied⟩ := exists_supplies (q.source.setInput text)
  obtain ⟨fuel, ⟨result, q'⟩, hrun⟩ := h.halts q text hsupplied
  rw [← h.parse_eq_run] at hrun
  have hresult := h.result_of_delivers hrun hts
  rw [hread] at hresult
  cases result with
  | error err => cases hresult
  | ok n' =>
    obtain rfl := Option.some.inj hresult
    exact ⟨fuel, q', hrun⟩

theorem type_ident (name : String) : (Written.ident name).type ≠ TokenKind.whitespace.type :=
  show TokenKind.ident.type ≠ TokenKind.whitespace.type by decide

theorem Key.type_ne_whitespace (k : Key) : ∀ w ∈ k.written, w.type ≠ TokenKind.whitespace.type := by
  obtain ⟨name, spec⟩ := k
  cases spec with
  | none => exact List.forall_mem_singleton.mpr (type_ident name)
  | some spec =>
    simp only [Key.written, List.forall_mem_cons]
    exact ⟨type_ident name, by decide, type_ident spec, List.forall_mem_nil _⟩

theorem Expr.type_ne_whitespace (e : Expr) :
    ∀ w ∈ e.written, w.type ≠ TokenKind.whitespace.type := by
  induction e with
  | int n =>
    have hint : TokenKind.int.type ≠ TokenKind.whitespace.type := by decide
    exact List.forall_mem_singleton.mpr hint
  | float x =>
    have hfloat : TokenKind.float.type ≠ TokenKind.whitespace.type := by decide
    exact List.forall_mem_singleton.mpr hfloat
  | var name => exact List.forall_mem_singleton.mpr (type_ident name)
  | neg e _ ih =>
    simp only [Expr.written, List.forall_mem_cons, List.forall_mem_append]
    exact ⟨by decide, by decide, ih, by decide, List.forall_mem_nil _⟩
  | binary op lhs rhs _ ih ih' =>
    simp only [Expr.written, List.forall_mem_cons, List.forall_mem_append]
    exact ⟨by decide, ih, by cases op <;> decide, ih', by decide, List.forall_mem_nil _⟩
  | call f arg _ ih =>
    simp only [Expr.written, List.forall_mem_cons, List.forall_mem_append]
    exact ⟨type_ident f.name, by decide, ih, by decide, List.forall_mem_nil _⟩
  | latest key =>
    simp only [Expr.written, List.forall_mem_cons, List.forall_mem_append]
    exact ⟨by decide, key.type_ne_whitespace, by decide, List.forall_mem_nil _⟩
  | sample key time _ ih =>
    simp only [Expr.written, List.forall_mem_cons, List.forall_mem_append]
    exact ⟨by decide, key.type_ne_whitespace, by decide, ih, by decide, by decide,
      List.forall_mem_nil _⟩

theorem solid_of_written {ws : List Written} {ts : List Token}
    (hws : ∀ w ∈ ws, w.type ≠ TokenKind.whitespace.type) (h : List.Forall₂ Written.Is ws ts) :
    solid ts = ts := by
  induction h with
  | nil => rfl
  | @cons w t ws ts ht _ ih =>
    obtain ⟨hw, hws⟩ := List.forall_mem_cons.mp hws
    obtain ⟨span, rfl⟩ := ht
    have hsolid : (w.token span).isTrivia = false := beq_false_of_ne hw
    rw [solid, List.filter_cons_of_pos (by rw [hsolid, Bool.not_false])]
    exact congrArg _ (ih hws)

theorem exists_read_text (hn : n.Proper) (hfinite : ∀ x ∈ n.floats, x.isFinite = true) (p : Int)
    (s : Scanner) : ∃ ts n', Delivers source ts (s.setInput n.text) ∧ read p (solid ts) = some n' ∧
      n'.bare = n.bare := by
  have hclean : Clean (s.setInput n.text).modes (n.written ++ []) :=
    hn.clean hfinite rfl nofun trivial
  rw [List.append_nil] at hclean
  obtain ⟨ts, hts, hwritten⟩ := delivers_of_clean hclean hn.toList_text
  obtain ⟨n', hbare, hreads⟩ := exists_reads (p := p) hn hwritten
  refine ⟨ts, n', hts, ?_, hbare⟩
  have hread := hreads [] [] rfl
  rw [List.append_nil, resume_nil] at hread
  rw [solid_of_written n.type_ne_whitespace hwritten, read_eq, hread]

theorem Calculates.exists_parse_of_scanAll (h : Calculates p (engine g)) {ts : List Token}
    (hscan : (q.source.scanAll text).1 = .ok ts) (hread : read p (significant ts) = some n) :
    ∃ fuel q', (engine g).parse fuel q text = some (.ok n, q') := by
  rcases q.source.scanAll_cases text with ⟨ts', last, hts, hlast, hok⟩ | ⟨-, err, herror⟩
  · obtain rfl := Except.ok.inj (hscan.symm.trans hok)
    rw [significant_append_end hts.not_isEnd hlast] at hread
    exact h.exists_parse hts hread
  · cases hscan.symm.trans herror

theorem afterConfigure_eq {g g' : Grammar} (h : g.configure = (.ok (), g')) :
    g.afterConfigure = g' := by
  rw [Grammar.afterConfigure, h]

theorem calculates_default : Calculates defaultNegLevel (engine defaultGrammar) := by
  obtain ⟨g, -, -, hg⟩ := exists_grammar defaultNegLevel
  have hdefault : defaultGrammar = g := afterConfigure_eq hg
  rw [hdefault]
  exact ⟨hg, rfl⟩

/-- Whatever the default parser makes of a text, if its numbers are finite, prints to a text that any
parser makes the same expression of, only at other places. -/
theorem parse_of_print (hparse : (engine defaultGrammar).parse fuel q text = some (.ok n, q'))
    (hfinite : ∀ x ∈ n.floats, x.isFinite = true) (again : Parser Scanner Nat) :
    ∃ fuel n' q', (engine defaultGrammar).parse fuel again n.text = some (.ok n', q') ∧
      n'.bare = n.bare := by
  obtain ⟨ts, n', hts, hread, hbare⟩ := exists_read_text (calculates_default.proper hparse) hfinite
    defaultNegLevel again.source
  obtain ⟨fuel', q'', hagain⟩ := calculates_default.exists_parse hts hread
  exact ⟨fuel', n', q'', hagain, hbare⟩

/-! A negative sample, `-<a-1:b[.5]>`, in whose key a sign is part of the name. -/

def half : Float := Decimal.floatOfWord false 4602678819172646912

def negSample : Expr := .neg (.sample ⟨"a-1", some "b"⟩ (.float half ⟨8, 9⟩) ⟨1, 11⟩) ⟨0, 11⟩

def negSampleTokens : List Token :=
  [.punct (.single 0) '-', .punct (.single 1) '<', ⟨⟨2, 4⟩, TokenKind.ident.type, .ident "a-1"⟩,
    .punct (.single 5) ':', ⟨.single 6, TokenKind.ident.type, .ident "b"⟩, .punct (.single 7) '[',
    ⟨⟨8, 9⟩, TokenKind.float.type, .float half⟩, .punct (.single 10) ']', .punct (.single 11) '>',
    .finish 12]

theorem negSample_scanAll :
    (newParser.source.scanAll "-<a-1:b[.5]>").1 = .ok negSampleTokens := by
  have h : (newParser.source.scanAll "-<a-1:b[.5]>").1.toOption = some negSampleTokens := by
    decide +kernel
  exact toOption_eq_some_iff.mp h

theorem negSample_read : read p (significant negSampleTokens) = some negSample := by
  have hsolid : significant negSampleTokens = negSampleTokens.dropLast := by decide +kernel
  rw [hsolid, read_eq]
  refine (start_minus ⟨_, rfl⟩).trans ((start_time ⟨_, rfl⟩ ⟨_, rfl⟩ ⟨_, rfl⟩ ⟨_, rfl⟩ ⟨_, rfl⟩).trans
    ((start_float ⟨_, rfl⟩).trans ((resume_time ⟨_, rfl⟩).trans ((shut_of _ _ ⟨_, rfl⟩ _ _).trans ?_))))
  exact (resume_minus fun _ _ _ he => by cases he).trans resume_nil

theorem negSample_parse_of_print : ∃ fuel q',
    (engine defaultGrammar).parse fuel newParser "-<a-1:b[.5]>" = some (.ok negSample, q') ∧
      (∀ x ∈ negSample.floats, x.isFinite = true) ∧ negSample.text = "(-<a-1:b[0.5]>)" ∧
      ∃ fuel n' q', (engine defaultGrammar).parse fuel newParser negSample.text = some (.ok n', q') ∧
        n'.bare = negSample.bare := by
  obtain ⟨fuel, q', hparse⟩ :=
    calculates_default.exists_parse_of_scanAll negSample_scanAll negSample_read
  have hfinite : ∀ x ∈ negSample.floats, x.isFinite = true := by decide +kernel
  exact ⟨fuel, q', hparse, hfinite, by decide +kernel, parse_of_print hparse hfinite newParser⟩

end CanonicalLR.Calculator
