import CanonicalLR.Proofs.Calculator.Openings
import CanonicalLR.Proofs.Calculator.Printing

/-! Tokens with the modes in which they were scanned. The brackets of references and times open and
close modes just as the reader goes into them and out of them, so what is read of scanned tokens is
a proper expression. -/

namespace CanonicalLR

open Scanner

/-! What scanned tokens hold. -/

structure Token.ScannedIn (mode : Mode) (t : Token) : Prop where
  ident : ∀ name, t.payload = .ident name → IsName mode name
  int : ∀ n, t.payload = .int n → ∃ k : Nat, n = k ∧ k ≤ Text.maxInt64
  float : ∀ x, t.payload = .float x → Decimal.Unsigned x

/-- Tokens as they can be scanned one after the other from these modes on. -/
inductive Scanned : List Mode → List Token → Prop where
  | nil {modes : List Mode} : Scanned modes []
  | cons {modes : List Mode} {t : Token} {ts : List Token} : t.ScannedIn (modes.headD .normal) →
      Scanned (modesAfter modes t) ts → Scanned modes (t :: ts)

namespace Scanner

variable {mode : Mode} {modes : List Mode} {cs : List Char} {t : Token} {ts : List Token}

/-- The phases in which a number can be scanned on. -/
def Phase.inNumber : Phase → Bool
  | int | dot | fraction | exponentMark | exponentSign | exponentDigits => true
  | _ => false

/-- Behind its first character nothing becomes a number that is not one yet. -/
theorem reads_ne_float {phase : Phase} (hstart : phase ≠ .start) (hphase : phase.inNumber = false) :
    phase.reads mode cs ≠ some .float := by
  induction cs generalizing phase with
  | nil =>
    have haccepts : phase.accepts ≠ some .float := by
      cases phase <;> first | (cases hphase; done) | decide
    exact haccepts
  | cons c cs ih =>
    rw [Phase.reads_cons]
    intro h
    obtain ⟨next, hnext, hreads⟩ := Option.bind_eq_some_iff.mp h
    generalize mode.classify c = kind at hnext
    have hkeeps : next ≠ .start ∧ next.inNumber = false := by
      cases phase <;> cases kind <;> first
        | exact absurd rfl hstart
        | (cases hphase; done)
        | (cases hnext; done)
        | (cases hnext; exact ⟨by decide, rfl⟩)
    exact ih hkeeps.1 hkeeps.2 hreads

theorem head?_ne_minus (h : lexeme? mode cs = some .float) : cs.head? ≠ some '-' := by
  rintro hminus
  obtain ⟨rest, rfl⟩ := List.head?_eq_some_iff.mp hminus
  rw [lexeme?, Phase.reads_cons] at h
  have hkind : mode.classify '-' = .sign ∨ mode.classify '-' = .alpha := by
    cases mode <;> decide +kernel
  rcases hkind with hkind | hkind
  · rw [hkind] at h
    exact reads_ne_float (by decide) rfl h
  · rw [hkind] at h
    exact reads_ne_float (by decide) rfl h

theorem scannedIn_of_token {span : Span} {lexeme : Lexeme} (hlexeme : lexeme? mode cs = some lexeme)
    (h : token span cs lexeme = .ok t) : t.ScannedIn mode := by
  cases lexeme with
  | punct | blank | string =>
    cases h
    constructor <;> (intro _ hpayload; cases hpayload)
  | ident =>
    cases h
    rw [identToken]
    split_ifs with htrue hfalse
    · constructor <;> (intro _ hpayload; cases hpayload)
    · constructor <;> (intro _ hpayload; cases hpayload)
    · constructor <;> intro _ hpayload <;> cases hpayload
      exact ⟨by rwa [String.toList_ofList], htrue, hfalse⟩
  | int =>
    simp only [token, intToken] at h
    split at h <;> cases h
    rename_i n hn
    constructor <;> intro _ hpayload <;> cases hpayload
    exact ⟨n, rfl, of_decide_eq_true (Option.filter_eq_some_iff.mp hn).2⟩
  | float =>
    simp only [token, floatToken] at h
    split at h <;> cases h
    rename_i x hx
    constructor <;> intro _ hpayload <;> cases hpayload
    exact Decimal.unsigned_of_read (head?_ne_minus hlexeme) hx

theorem scanned_of_delivers {s : Scanner} (h : Delivers source ts s) : Scanned s.modes ts := by
  induction h with
  | finish => exact .nil
  | @token t ts s s' hnext hend _ ih =>
    rcases next_ok hnext with ⟨-, rfl, -⟩ | ⟨size, lexeme, hbest, htoken, -, -, hmodes⟩
    · cases hend
    · rw [hmodes] at ih
      exact .cons (scannedIn_of_token (best_munch_iff.mp hbest).2.1 htoken) ih

/-- The modes behind a token of this type. -/
def afterType (modes : List Mode) (type : TokenType) : List Mode :=
  modesAfter modes ⟨.single 0, type, .none⟩

theorem modesAfter_eq (modes : List Mode) (t : Token) : modesAfter modes t = afterType modes t.type :=
  rfl

end Scanner

theorem Scanned.solid {modes : List Mode} {ts : List Token} (h : Scanned modes ts) :
    Scanned modes (solid ts) := by
  induction h with
  | nil => exact .nil
  | @cons modes t ts ht _ ih =>
    by_cases htrivia : t.isTrivia = true
    · rw [modesAfter_of_isTrivia htrivia] at ih
      rwa [CanonicalLR.solid, List.filter_cons_of_neg (by simp [htrivia])]
    · rw [CanonicalLR.solid, List.filter_cons_of_pos (by simpa using htrivia)]
      exact .cons ht ih

namespace Calculator

variable {p : Int} {modes : List Mode} {cs : List Context} {e r : Expr} {t : Token}
  {ts : List Token}

/-! Modes and contexts. -/

def Mark.after (m : Mark) (modes : List Mode) : List Mode := afterType modes m.type

theorem Scanned.uncons {m : Mark} (h : Scanned modes (t :: ts)) (ht : mark? t = some m) :
    t.ScannedIn (modes.headD .normal) ∧ Scanned (m.after modes) ts := by
  cases h with
  | cons hin hts =>
    have htype : m.type = t.type := by simpa using List.find?_some ht
    rw [modesAfter_eq, ← htype] at hts
    exact ⟨hin, hts⟩

/-- The modes inside these contexts. -/
def modesIn : List Context → List Mode
  | [] => []
  | .time .. :: cs => .timeSpec :: .spec :: modesIn cs
  | .operator .. :: cs | .minus _ :: cs | .paren _ :: cs | .call _ _ :: cs => modesIn cs

theorem modesIn_plain (cs : List Context) : ((modesIn cs).headD .normal).inReference = false := by
  induction cs with
  | nil => rfl
  | cons c cs ih =>
    cases c with
    | time => rfl
    | _ => exact ih

theorem Mark.after_inner {m : Mark} (modes : List Mode)
    (hm : m ∉ [less, greater, colon, lbracket, rbracket]) : m.after modes = modes := by
  have hall : ∀ m ∈ all, m ∈ [less, greater, colon, lbracket, rbracket] ∨
      TokenType.char? m.type ∉ modeChars.map some := by decide +kernel
  have hchar : (⟨.single 0, m.type, .none⟩ : Token).char? ∉ modeChars.map some :=
    (hall m m.mem_all).resolve_left hm
  exact modesAfter_of_char? hchar modes

theorem Mark.after_less (modes : List Mode) : Mark.less.after modes = .bracket :: modes := by
  rcases modes with _ | ⟨mode, outer⟩
  · rfl
  · cases mode <;> rfl

def NameIn (mode : Mode) (t : Token) : Prop := ∀ name, identOf? t = some name → IsName mode name

theorem nameIn_of_scannedIn {mode : Mode} (h : t.ScannedIn mode) : NameIn mode t := by
  intro name hname
  refine h.ident name ?_
  rw [identOf?] at hname
  split at hname
  · next hpayload => rw [hpayload, Option.some.inj hname]
  · cases hname

/-- The names of a reference were scanned in their modes, and expressions are proper. -/
def Context.Proper : Context → Prop
  | .operator _ lhs _ => lhs.Proper
  | .minus _ | .paren _ | .call _ _ => True
  | .time _ t₁ _ t₃ _ => NameIn .bracket t₁.1 ∧ NameIn .spec t₃.1

theorem proper_of_intOf? {mode : Mode} (ht : t.ScannedIn mode) (h : intOf? t = some e) :
    e.Proper := by
  rw [intOf?] at h
  split at h <;> cases h
  rename_i n hn
  obtain ⟨k, rfl, hk⟩ := ht.int n hn
  exact .int hk

theorem proper_of_floatOf? {mode : Mode} (ht : t.ScannedIn mode) (h : floatOf? t = some e) :
    e.Proper := by
  rw [floatOf?] at h
  split at h <;> cases h
  rename_i x hx
  exact .float (ht.float x hx)

theorem proper_of_latest? (ht : NameIn .bracket t) (h : latest? t = some e) : e.Proper := by
  obtain ⟨name, hname, rfl⟩ := Option.map_eq_some_iff.mp h
  exact .latest ⟨ht name hname, nofun⟩

theorem properKey {t t' : Token} {name spec : String} (ht : NameIn .bracket t)
    (ht' : NameIn .spec t') (hname : identOf? t = some name) (hspec : identOf? t' = some spec) :
    Key.Proper ⟨name, some spec⟩ :=
  ⟨ht name hname, fun _ h => Option.some.inj h ▸ ht' spec hspec⟩

theorem proper_of_latestSpec? {t₁ t₂ t₃ : Token} (ht : NameIn .bracket t₁) (ht' : NameIn .spec t₃)
    (h : latestSpec? t₁ t₂ t₃ = some e) : e.Proper := by
  obtain ⟨name, hname, h⟩ := Option.bind_eq_some_iff.mp h
  obtain ⟨spec, hspec, rfl⟩ := Option.map_eq_some_iff.mp h
  exact .latest (properKey ht ht' hname hspec)

theorem proper_of_sample? {t₁ t₂ t₃ t₄ t₅ : Token} {time : Expr} (ht : NameIn .bracket t₁)
    (ht' : NameIn .spec t₃) (htime : time.Proper) (h : sample? t₁ t₂ t₃ t₄ time t₅ = some e) :
    e.Proper := by
  obtain ⟨name, hname, h⟩ := Option.bind_eq_some_iff.mp h
  obtain ⟨spec, hspec, rfl⟩ := Option.map_eq_some_iff.mp h
  exact .sample (properKey ht ht' hname hspec) htime

theorem exists_of_aheadOf {m : Mark} (h : aheadOf ts = some m.symbol) :
    ∃ (t : Of m) (rest : List Token), ts = t.1 :: rest := by
  cases ts with
  | nil => exact absurd h (by cases m with | op o => cases o <;> decide | _ => decide)
  | cons t rest =>
    obtain ⟨m', hm', hsymbol⟩ := Option.map_eq_some_iff.mp h
    obtain rfl := Mark.symbol_injective hsymbol
    exact ⟨⟨t, hm'⟩, rest, rfl⟩

theorem exists_of_take {α : Type} {m : Mark} {f : Token × Left ts.length → Option α}
    (h : (take m ts).bind f ≠ none) : ∃ (t : Of m) (rest : List Token), ts = t.1 :: rest := by
  cases ts with
  | nil => exact absurd rfl h
  | cons t rest =>
    by_cases hm : mark? t = some m
    · exact ⟨⟨t, hm⟩, rest, rfl⟩
    · simp [take, hm] at h

/-! Reading keeps expressions proper. -/

/-- So it is as long as this much is left to be read and closed. -/
structure ProperBelow (p : Int) (n : Nat) : Prop where
  start : ∀ {cs : List Context} {ts : List Token} {r : Expr}, 2 * ts.length + cs.length < n →
    (∀ c ∈ cs, c.Proper) → Scanned (modesIn cs) ts → start p cs ts = some r → r.Proper
  resume : ∀ {cs : List Context} {e : Expr} {ts : List Token} {r : Expr},
    2 * ts.length + cs.length < n → (∀ c ∈ cs, c.Proper) → e.Proper → Scanned (modesIn cs) ts →
    resume p cs e ts = some r → r.Proper

namespace ProperBelow

variable {n : Nat} (h : ProperBelow p n) (hcs : ∀ c ∈ cs, c.Proper)
include h hcs

theorem shut {outer : List Mode} (hn : 2 * ts.length + cs.length < n) (he : e.Proper)
    (hmodes : Mark.greater.after outer = modesIn cs) (hts : Scanned outer ts)
    (hr : shut p cs t e ts = some r) : r.Proper := by
  obtain ⟨t₁, rest, rfl⟩ := exists_of_take (by
    rw [Calculator.shut, Option.bind_eq_bind] at hr
    rw [hr]
    exact Option.some_ne_none r)
  have hrest := (Scanned.uncons hts t₁.2).2
  rw [hmodes] at hrest
  rw [Calculator.shut, take_of] at hr
  simp only [List.length_cons] at hn
  exact h.resume (by omega) hcs (he.withSpan _) hrest hr

theorem resume_stopped (hn : 2 * ts.length + cs.length = n) (he : e.Proper)
    (hts : Scanned (modesIn cs) ts) (hstops : Stops (Context.pending p cs) ts)
    (hr : Calculator.resume p cs e ts = some r) : r.Proper := by
  have hclose : close p cs e ts = some r := (resume_of_stops hstops).symm.trans hr
  have htakes := ne_of_eq_of_ne hclose (Option.some_ne_none r)
  cases cs with
  | nil =>
    cases ts with
    | nil => exact Option.some.inj hclose ▸ he
    | cons t rest => cases hclose
  | cons c outer =>
    obtain ⟨hc, houter⟩ := List.forall_mem_cons.mp hcs
    have hclosed : ∀ {ts' : List Token} {e' : Expr}, ts'.length ≤ ts.length → e'.Proper →
        Scanned (modesIn outer) ts' → Calculator.resume p outer e' ts' = some r → r.Proper := by
      intro ts' e' hle he' hts' hr'
      simp only [List.length_cons] at hn
      exact h.resume (by omega) houter he' hts' hr'
    cases c with
    | operator o lhs t => exact hclosed le_rfl (.binary hc he) hts hclose
    | minus t => exact hclosed le_rfl (.neg he) hts hclose
    | paren t =>
      obtain ⟨t₁, rest, rfl⟩ := exists_of_take htakes
      have hrest := (Scanned.uncons hts t₁.2).2
      rw [Mark.after_inner _ (by decide)] at hrest
      rw [resume_paren] at hr
      exact hclosed (Nat.le_succ _) (he.withSpan _) hrest hr
    | call t t₁ =>
      obtain ⟨t₂, rest, rfl⟩ := exists_of_take htakes
      have hrest := (Scanned.uncons hts t₂.2).2
      rw [Mark.after_inner _ (by decide)] at hrest
      rw [resume_call] at hr
      obtain ⟨_, hcall, hr⟩ := Option.bind_eq_some_iff.mp hr
      obtain ⟨f, -, rfl⟩ := Option.map_eq_some_iff.mp hcall
      exact hclosed (Nat.le_succ _) (.call he) hrest hr
    | time t t₁ t₂ t₃ t₄ =>
      obtain ⟨t₅, rest, rfl⟩ := exists_of_take htakes
      have hrest := (Scanned.uncons hts t₅.2).2
      rw [resume_time] at hr
      obtain ⟨_, hsample, hr⟩ := Option.bind_eq_some_iff.mp hr
      simp only [List.length_cons] at hn
      exact h.shut houter (by omega) (proper_of_sample? hc.1 hc.2 he hsample) rfl hrest hr

theorem resume_step (hn : 2 * ts.length + cs.length = n) (he : e.Proper)
    (hts : Scanned (modesIn cs) ts) (hr : Calculator.resume p cs e ts = some r) : r.Proper := by
  by_cases hop : ∃ t rest o, ts = t :: rest ∧ mark? t = some (.op o) ∧
      o.extends (Context.pending p cs)
  · obtain ⟨t, rest, o, rfl, ht, ho⟩ := hop
    have hrest := (Scanned.uncons hts ht).2
    rw [Mark.after_inner _ (by simp)] at hrest
    rw [resume_extends ⟨t, ht⟩ ho] at hr
    have hlt : 2 * rest.length + (Context.operator o e ⟨t, ht⟩ :: cs).length < n := by
      simp only [List.length_cons] at hn ⊢
      omega
    exact h.start hlt (List.forall_mem_cons.mpr ⟨he, hcs⟩) hrest hr
  · have hstops : Stops (Context.pending p cs) ts := fun t rest o hcons ht ho =>
      hop ⟨t, rest, o, hcons, ht, ho⟩
    exact h.resume_stopped hcs hn he hts hstops hr

theorem start_reference (hn : 2 * (ts.length + 1) + cs.length = n) (t : Of .less)
    (hts : Scanned (.bracket :: modesIn cs) ts)
    (hr : Calculator.start p cs (t.1 :: ts) = some r) : r.Proper := by
  obtain ⟨t₁, ts, rfl⟩ := exists_of_aheadOf (m := .ident)
    (aheadOf_of_less t (ne_of_eq_of_ne hr (Option.some_ne_none r)))
  obtain ⟨hname, hts⟩ := Scanned.uncons hts t₁.2
  have hname := nameIn_of_scannedIn hname
  rw [Mark.after_inner _ (by decide)] at hts
  cases hcolon : take .colon ts with
  | none =>
    rw [start_name t t₁ hcolon] at hr
    obtain ⟨e, he, hr⟩ := Option.bind_eq_some_iff.mp hr
    simp only [List.length_cons] at hn
    exact h.shut hcs (by omega) (proper_of_latest? hname he) rfl hts hr
  | some taken =>
    obtain ⟨t₂, ts, rfl⟩ := exists_of_aheadOf (aheadOf_of_take hcolon)
    have hts := (Scanned.uncons hts t₂.2).2
    obtain ⟨t₃, ts, rfl⟩ := exists_of_aheadOf (m := .ident)
      (aheadOf_of_colon t t₁ t₂ (ne_of_eq_of_ne hr (Option.some_ne_none r)))
    obtain ⟨hspec, hts⟩ := Scanned.uncons hts t₃.2
    have hspec := nameIn_of_scannedIn hspec
    rw [Mark.after_inner _ (by decide)] at hts
    simp only [List.length_cons] at hn
    cases hbracket : take .lbracket ts with
    | none =>
      rw [start_spec t t₁ t₂ t₃ hbracket] at hr
      obtain ⟨e, he, hr⟩ := Option.bind_eq_some_iff.mp hr
      exact h.shut hcs (by omega) (proper_of_latestSpec? hname hspec he) rfl hts hr
    | some taken =>
      obtain ⟨t₄, ts, rfl⟩ := exists_of_aheadOf (aheadOf_of_take hbracket)
      have hts := (Scanned.uncons hts t₄.2).2
      rw [start_time] at hr
      have hlt : 2 * ts.length + (Context.time t t₁ t₂ t₃ t₄ :: cs).length < n := by
        simp only [List.length_cons] at hn ⊢
        omega
      exact h.start hlt (List.forall_mem_cons.mpr ⟨⟨hname, hspec⟩, hcs⟩) hts hr

theorem start_ident_step (hn : 2 * (ts.length + 1) + cs.length = n) (t : Of .ident)
    (hin : t.1.ScannedIn ((modesIn cs).headD .normal)) (hts : Scanned (modesIn cs) ts)
    (hr : Calculator.start p cs (t.1 :: ts) = some r) : r.Proper := by
  cases hparen : take .lparen ts with
  | none =>
    rw [start_ident t hparen] at hr
    obtain ⟨_, hvar, hr⟩ := Option.bind_eq_some_iff.mp hr
    obtain ⟨name, hname, rfl⟩ := Option.map_eq_some_iff.mp hvar
    have hproper : (Expr.var name t.1.span).Proper :=
      .var ((isName_of_plain (modesIn_plain cs)).mp (nameIn_of_scannedIn hin name hname))
    exact h.resume (by omega) hcs hproper hts hr
  | some taken =>
    obtain ⟨t₁, rest, rfl⟩ := exists_of_aheadOf (aheadOf_of_take hparen)
    have hrest := (Scanned.uncons hts t₁.2).2
    rw [Mark.after_inner _ (by decide)] at hrest
    rw [start_call] at hr
    have hlt : 2 * rest.length + (Context.call t t₁ :: cs).length < n := by
      simp only [List.length_cons] at hn ⊢
      omega
    exact h.start hlt (List.forall_mem_cons.mpr ⟨trivial, hcs⟩) hrest hr

theorem start_step (hn : 2 * ts.length + cs.length = n) (hts : Scanned (modesIn cs) ts)
    (hr : Calculator.start p cs ts = some r) : r.Proper := by
  obtain ⟨m, hm, t, rest, rfl⟩ : ∃ m ∈ [Mark.op .sub, .lparen, .less, .int, .float, .ident],
      ∃ (t : Of m) (rest : List Token), ts = t.1 :: rest := by
    obtain ⟨s, hs, hahead⟩ := exists_aheadOf_start (ne_of_eq_of_ne hr (Option.some_ne_none r))
    have hmap : s ∈ [Mark.op .sub, .lparen, .less, .int, .float, .ident].map Mark.symbol := hs
    obtain ⟨m, hm, rfl⟩ := List.mem_map.mp hmap
    exact ⟨m, hm, exists_of_aheadOf hahead⟩
  obtain ⟨hin, hrest⟩ := Scanned.uncons hts t.2
  simp only [List.length_cons] at hn
  have hopen : ∀ c : Context, c.Proper → Scanned (modesIn (c :: cs)) rest →
      Calculator.start p (c :: cs) rest = some r → r.Proper := by
    intro c hc hts' hr'
    have hlt : 2 * rest.length + (c :: cs).length < n := by
      simp only [List.length_cons]
      omega
    exact h.start hlt (List.forall_mem_cons.mpr ⟨hc, hcs⟩) hts' hr'
  simp only [List.mem_cons, List.not_mem_nil, or_false] at hm
  rcases hm with rfl | rfl | rfl | rfl | rfl | rfl
  case inr.inr.inl =>
    rw [Mark.after_less] at hrest
    exact h.start_reference hcs hn t hrest hr
  all_goals rw [Mark.after_inner _ (by decide)] at hrest
  · exact hopen (.minus t) trivial hrest ((start_minus t).symm.trans hr)
  · exact hopen (.paren t) trivial hrest ((start_paren t).symm.trans hr)
  · rw [start_int] at hr
    obtain ⟨e, he, hr⟩ := Option.bind_eq_some_iff.mp hr
    exact h.resume (by omega) hcs (proper_of_intOf? hin he) hrest hr
  · rw [start_float] at hr
    obtain ⟨e, he, hr⟩ := Option.bind_eq_some_iff.mp hr
    exact h.resume (by omega) hcs (proper_of_floatOf? hin he) hrest hr
  · exact h.start_ident_step hcs hn t hin hrest hr

end ProperBelow

theorem properBelow (p : Int) (n : Nat) : ProperBelow p n := by
  induction n with
  | zero => exact ⟨fun hn => absurd hn (Nat.not_lt_zero _), fun hn => absurd hn (Nat.not_lt_zero _)⟩
  | succ n ih =>
    refine ⟨fun hn hcs hts hr => ?_, fun hn hcs he hts hr => ?_⟩
    · rcases Nat.lt_succ_iff_lt_or_eq.mp hn with hlt | heq
      · exact ih.start hlt hcs hts hr
      · exact ih.start_step hcs heq hts hr
    · rcases Nat.lt_succ_iff_lt_or_eq.mp hn with hlt | heq
      · exact ih.resume hlt hcs he hts hr
      · exact ih.resume_step hcs heq he hts hr

theorem proper_of_read (hts : Scanned [] ts) (hr : read p ts = some e) : e.Proper := by
  rw [read_eq] at hr
  have hmodes : Scanned (modesIn []) ts := hts
  exact (properBelow p _).start (Nat.lt_succ_self _) (List.forall_mem_nil _) hmodes hr

end Calculator

end CanonicalLR
