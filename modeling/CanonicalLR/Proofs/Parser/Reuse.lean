import CanonicalLR.Proofs.Parser.Lockstep
import CanonicalLR.Proofs.Parser.Recorded
import CanonicalLR.Scanner.Source

/-! A parser that is used again. What earlier parses leave behind is its arrays, the place and the
modes of the scanner, the state of the builder and the counters: a parse clears the first three, a
builder without memory does not mind the fourth, and the counters go on. -/

namespace CanonicalLR

variable {σ β ν : Type}

instance : Zero ParserStats := ⟨{}⟩

instance : Add ParserStats :=
  ⟨fun a b => ⟨a.tokens + b.tokens, a.shifts + b.shifts, a.reductions + b.reductions⟩⟩

/-! Two runs beside each other, one of them with a past. -/

/-- Neither the source nor the builder can tell states apart that are in these relations. -/
structure Engine.Blind (e : Engine σ β ν) (S : σ → σ → Prop) (B : β → β → Prop) : Prop where
  next : ∀ {s s' : σ}, S s s' → (e.source.next s).1 = (e.source.next s').1 ∧
    S (e.source.next s).2 (e.source.next s').2
  answer : ∀ {b b' : β}, B b b' → ∀ lhs rule children span,
    (e.builder.apply b lhs rule children span).1 = (e.builder.apply b' lhs rule children span).1 ∧
      B (e.builder.apply b lhs rule children span).2 (e.builder.apply b' lhs rule children span).2

variable {S : σ → σ → Prop} {B : β → β → Prop} {past : ParserStats}

/-- The first parser has the counters of the second and those of its past. -/
structure Parser.Resumes (S : σ → σ → Prop) (B : β → β → Prop) (past : ParserStats)
    (p p' : Parser σ β) : Prop where
  source : S p.source p'.source
  builder : B p.builder p'.builder
  stats : p.stats = past + p'.stats

inductive Progress.Resumes (S : σ → σ → Prop) (B : β → β → Prop) (past : ParserStats) :
    Progress σ β ν → Progress σ β ν → Prop where
  | more {frames : List (Frame ν)} {ahead : Option Token} {p p' : Parser σ β} :
      p.Resumes S B past p' →
      Progress.Resumes S B past (.more ⟨frames, ahead, p⟩) (.more ⟨frames, ahead, p'⟩)
  | done {result : Except ParseError ν} {p p' : Parser σ β} : p.Resumes S B past p' →
      Progress.Resumes S B past (.done result p) (.done result p')

namespace Engine.Blind

variable {e : Engine σ β ν} (h : e.Blind S B) {frames : List (Frame ν)} {ahead : Option Token}
  {p p' : Parser σ β} (hp : p.Resumes S B past p')
include h hp

theorem fetch : Progress.Resumes S B past (e.fetch ⟨frames, ahead, p⟩)
    (e.fetch ⟨frames, ahead, p'⟩) := by
  obtain ⟨hresult, hsource⟩ := h.next hp.source
  rcases hn : e.source.next p.source with ⟨result, source⟩
  rcases hn' : e.source.next p'.source with ⟨result', source'⟩
  rw [hn, hn'] at hresult hsource
  obtain rfl : result = result' := hresult
  simp only [Engine.fetch, hn, hn']
  cases result with
  | error err => exact .done ⟨hsource, hp.builder, hp.stats⟩
  | ok t => exact .more ⟨hsource, hp.builder, by rw [hp.stats]; rfl⟩

omit h in
theorem accept (t : Token) : Progress.Resumes S B past (e.accept ⟨frames, ahead, p⟩ t)
    (e.accept ⟨frames, ahead, p'⟩ t) := by
  simp only [Engine.accept]
  split <;> exact .done hp

omit h in
theorem push (t : Token) (rule : Rule) (below : List (Frame ν)) (span : Span) (n : ν) :
    Progress.Resumes S B past (e.push t rule below span n p) (e.push t rule below span n p') := by
  unfold Engine.push
  split
  · exact .done hp
  · exact .more ⟨hp.source, hp.builder, by rw [hp.stats]; rfl⟩

theorem reduce (t : Token) (rule : Rule) : Progress.Resumes S B past
    (e.reduce ⟨frames, ahead, p⟩ t rule) (e.reduce ⟨frames, ahead, p'⟩ t rule) := by
  by_cases hlen : rule.rhs.length ≤ frames.length
  · have hlen' : rule.rhs.length ≤ (Config.mk frames ahead p').frames.length := hlen
    rw [Engine.reduce_eq hlen, Engine.reduce_eq hlen']
    obtain ⟨hanswer, hbuilder⟩ := h.answer hp.builder rule.lhs rule
      ((Engine.popped ⟨frames, ahead, p⟩ rule).map (·.child))
      (spanOf (Engine.popped ⟨frames, ahead, p⟩ rule) t)
    change (e.call ⟨frames, ahead, p⟩ t rule).1 = (e.call ⟨frames, ahead, p'⟩ t rule).1 at hanswer
    change B (e.call ⟨frames, ahead, p⟩ t rule).2 (e.call ⟨frames, ahead, p'⟩ t rule).2 at hbuilder
    rcases hcall : e.call ⟨frames, ahead, p⟩ t rule with ⟨answer, b⟩
    rcases hcall' : e.call ⟨frames, ahead, p'⟩ t rule with ⟨answer', b'⟩
    rw [hcall, hcall'] at hanswer hbuilder
    obtain rfl : answer = answer' := hanswer
    have hp' : Parser.Resumes S B past { p with builder := b } { p' with builder := b' } :=
      ⟨hp.source, hbuilder, hp.stats⟩
    rcases answer with _ | _ | n
    · exact .done hp'
    · exact .done hp'
    · exact push hp' t rule _ _ n
  · rw [Engine.reduce_of_lt (Nat.not_le.mp hlen), Engine.reduce_of_lt (Nat.not_le.mp hlen)]
    exact .done hp

theorem act (t : Token) : Progress.Resumes S B past (e.act ⟨frames, ahead, p⟩ t)
    (e.act ⟨frames, ahead, p'⟩ t) := by
  unfold Engine.act
  cases e.grammar.symbols.byType? t.type with
  | none => exact .done hp
  | some s =>
    simp only
    cases (e.grammar.state (topState frames)).shift? s with
    | some next => exact .more ⟨hp.source, hp.builder, by rw [hp.stats]; rfl⟩
    | none =>
      cases (e.grammar.state (topState frames)).reduce? s with
      | none => exact .done hp
      | some i =>
        cases i with
        | zero => exact accept hp t
        | succ i =>
          simp only
          cases e.grammar.rules[i + 1]? with
          | none => exact .done hp
          | some rule => exact h.reduce hp t rule

theorem step : Progress.Resumes S B past (e.step ⟨frames, ahead, p⟩)
    (e.step ⟨frames, ahead, p'⟩) := by
  cases ahead with
  | none => exact h.fetch hp
  | some t => exact h.act hp t

theorem run {fuel : Nat} {result : Except ParseError ν} {q' : Parser σ β}
    (hrun : e.run fuel ⟨frames, ahead, p'⟩ = some (result, q')) :
    ∃ q, e.run fuel ⟨frames, ahead, p⟩ = some (result, q) ∧ q.Resumes S B past q' := by
  induction fuel generalizing frames ahead p p' with
  | zero => cases hrun
  | succ fuel ih =>
    have hstep : Progress.Resumes S B past (e.step ⟨frames, ahead, p⟩)
      (e.step ⟨frames, ahead, p'⟩) := h.step hp
    rw [Engine.run] at hrun ⊢
    generalize e.step ⟨frames, ahead, p⟩ = progress at hstep
    generalize e.step ⟨frames, ahead, p'⟩ = progress' at hstep hrun
    cases hstep with
    | done hp' =>
      cases hrun
      exact ⟨_, rfl, hp'⟩
    | more hp' => exact ih hp' hrun

omit hp in
/-- The text takes the place of whatever the source was at. -/
theorem parse (hinput : ∀ s s' text, S (e.source.setInput s text) (e.source.setInput s' text))
    (hbuilder : B p.builder p'.builder) (hstats : p.stats = past + p'.stats) {fuel : Nat}
    {text : String} {result : Except ParseError ν} {q' : Parser σ β}
    (hparse : e.parse fuel p' text = some (result, q')) :
    ∃ q, e.parse fuel p text = some (result, q) ∧ B q.builder q'.builder ∧
      q.stats = past + q'.stats := by
  unfold Engine.parse at hparse ⊢
  split at hparse
  · have hstart : Parser.Resumes S B past
        { p with source := e.source.setInput p.source text }
        { p' with source := e.source.setInput p'.source text } :=
      ⟨hinput p.source p'.source text, hbuilder, hstats⟩
    obtain ⟨q, hrun, hq⟩ := h.run hstart hparse
    exact ⟨q, by rw [if_pos ‹_›]; exact hrun, hq.builder, hq.stats⟩
  · cases hparse
    exact ⟨p, if_neg ‹_›, hbuilder, hstats⟩

end Engine.Blind

/-! The scanner. -/

namespace Scanner

/-- The two have the same text before them, in the same modes. -/
def Agrees (s s' : Scanner) : Prop := s.rest = s'.rest ∧ s.offset = s'.offset ∧ s.modes = s'.modes

theorem agrees_setInput (s s' : Scanner) (text : String) :
    (s.setInput text).Agrees (s'.setInput text) := ⟨rfl, rfl, rfl⟩

theorem Agrees.next {s s' : Scanner} (h : s.Agrees s') :
    s.next.1 = s'.next.1 ∧ s.next.2.Agrees s'.next.2 := by
  obtain ⟨rest, offset, modes, stats⟩ := s
  obtain ⟨rest', offset', modes', stats'⟩ := s'
  obtain ⟨rfl, rfl, rfl⟩ := h
  unfold Scanner.next
  split
  · exact ⟨rfl, rfl, rfl, rfl⟩
  · dsimp only [mode]
    split
    · exact ⟨rfl, rfl, rfl, rfl⟩
    · split
      · exact ⟨rfl, rfl, rfl, rfl⟩
      · exact ⟨rfl, rfl, rfl, rfl⟩

end Scanner

/-! Builders without memory. -/

namespace Builder

/-- The states of a builder after some calls. -/
inductive After (b : Builder β ν) (first : β) : β → Prop where
  | start : After b first first
  | call {state : β} (lhs : SymbolId) (rule : Rule) (children : List (Child ν)) (span : Span) :
      After b first state → After b first (b.apply state lhs rule children span).2

/-- What it answers does not depend on earlier calls. -/
def Memoryless (b : Builder β ν) (first : β) : Prop :=
  ∀ state, After b first state → ∀ lhs rule children span,
    (b.apply state lhs rule children span).1 = (b.apply first lhs rule children span).1

/-- Both have made the same calls, whatever they did before. -/
def SameCalls (b : Builder β ν) (first : β) (s s' : β × List (Call ν)) : Prop :=
  After b first s.1 ∧ After b first s'.1 ∧ s.2 = s'.2

theorem Memoryless.recorded {b : Builder β ν} {first : β} (h : b.Memoryless first)
    {s s' : β × List (Call ν)} (hs : b.SameCalls first s s') (lhs : SymbolId) (rule : Rule)
    (children : List (Child ν)) (span : Span) :
    (b.recorded.apply s lhs rule children span).1 = (b.recorded.apply s' lhs rule children span).1 ∧
      b.SameCalls first (b.recorded.apply s lhs rule children span).2
        (b.recorded.apply s' lhs rule children span).2 := by
  obtain ⟨hafter, hafter', hcalls⟩ := hs
  have hanswer : (b.apply s.1 lhs rule children span).1 = (b.apply s'.1 lhs rule children span).1 :=
    (h _ hafter lhs rule children span).trans (h _ hafter' lhs rule children span).symm
  refine ⟨hanswer, hafter.call lhs rule children span, hafter'.call lhs rule children span, ?_⟩
  show s.2 ++ _ = s'.2 ++ _
  rw [hcalls, hanswer]

end Builder

/-! Several texts on one machine. -/

/-- What a parse tells: its result, and the calls of the builder, the first one first. -/
structure Told (ν : Type) where
  result : Except ParseError ν
  calls : List (Call ν)

def Machine.recorded (m : Machine σ β ν) : Machine σ (β × List (Call ν)) ν :=
  ⟨m.states, m.entries, m.ahead, m.parser.recorded⟩

def Machine.plain (m : Machine σ (β × List (Call ν)) ν) : Machine σ β ν :=
  ⟨m.states, m.entries, m.ahead, m.parser.plain⟩

namespace Engine

def tell (e : Engine σ β ν) (fuel : Nat) (p : Parser σ β) (text : String) :
    Option (Told ν × Parser σ β) :=
  (e.recorded.parse fuel p.recorded text).map fun (result, q) => (⟨result, q.builder.2⟩, q.plain)

def tellOn (e : Engine σ β ν) (fuel : Nat) (m : Machine σ β ν) (text : String) :
    Option (Told ν × Machine σ β ν) :=
  match e.recorded.parseOn fuel m.recorded text with
  | .ended result m => some (⟨result, m.parser.builder.2⟩, m.plain)
  | _ => none

/-- Parses the texts one after the other, whatever becomes of each. -/
def session (e : Engine σ β ν) (fuel : Nat) :
    Machine σ β ν → List String → Option (List (Told ν) × Machine σ β ν)
  | m, [] => some ([], m)
  | m, text :: texts => do
    let (told, m) ← e.tellOn fuel m text
    let (rest, m) ← e.session fuel m texts
    some (told :: rest, m)

variable {e : Engine σ β ν}

theorem parse_add (e : Engine σ β ν) (n k : Nat) {p : Parser σ β} {text : String}
    {r : Except ParseError ν × Parser σ β} (h : e.parse n p text = some r) :
    e.parse (n + k) p text = some r := by
  unfold parse at h ⊢
  split
  · rename_i hconf
    rw [if_pos hconf] at h
    exact e.run_add n k _ h
  · rename_i hconf
    rw [if_neg hconf] at h
    exact h

/-- Texts on each of which a parse ends have all their parses end within so many steps. -/
theorem exists_fuel {p : Parser σ β} {texts : List String}
    (h : ∀ text ∈ texts, ∃ fuel r, e.parse fuel p text = some r) :
    ∃ fuel, ∀ text ∈ texts, ∃ r, e.parse fuel p text = some r := by
  induction texts with
  | nil => exact ⟨0, by simp⟩
  | cons text texts ih =>
    obtain ⟨n, r, hr⟩ := h text List.mem_cons_self
    obtain ⟨k, hk⟩ := ih fun text htext => h text (List.mem_cons_of_mem _ htext)
    refine ⟨n + k, List.forall_mem_cons.mpr ⟨⟨r, e.parse_add n k hr⟩, fun text htext => ?_⟩⟩
    obtain ⟨r, hr⟩ := hk text htext
    exact ⟨r, Nat.add_comm k n ▸ e.parse_add k n hr⟩

theorem exists_tell {fuel : Nat} {p : Parser σ β} {text : String}
    (h : ∃ r, e.parse fuel p text = some r) : ∃ told, e.tell fuel p text = some told := by
  obtain ⟨r, hr⟩ := h
  rw [parse_recorded] at hr
  obtain ⟨s, hs, -⟩ := Option.map_eq_some_iff.mp hr
  exact ⟨_, by rw [tell, hs]; rfl⟩

/-- What a machine tells is what the parser tells, whatever is on its arrays. -/
theorem exists_tellOn (hg : e.grammar.Reached) {fuel : Nat} {m : Machine σ β ν} {text : String}
    {told : Told ν} {p : Parser σ β} (h : e.tell fuel m.parser text = some (told, p)) :
    ∃ m', e.tellOn fuel m text = some (told, m') ∧ m'.parser = p := by
  obtain ⟨⟨result, q⟩, hparse, heq⟩ := Option.map_eq_some_iff.mp h
  cases heq
  have hreached : e.recorded.grammar.Reached := hg
  have hanswer := parseOn_answer? hreached fuel m.recorded text
  have hrecorded : m.recorded.parser = m.parser.recorded := rfl
  rw [hrecorded, hparse] at hanswer
  rw [tellOn]
  cases hon : e.recorded.parseOn fuel m.recorded text with
  | outOfRange =>
    rw [hon] at hanswer
    cases hanswer
  | outOfFuel =>
    rw [hon] at hanswer
    cases hanswer
  | ended result' m' =>
    rw [hon] at hanswer
    cases hanswer
    exact ⟨m'.plain, rfl, rfl⟩

end Engine

theorem ParserStats.add_assoc (a b c : ParserStats) : a + b + c = a + (b + c) := by
  refine (mk.injEq ..).mpr ⟨?_, ?_, ?_⟩
  all_goals exact Nat.add_assoc _ _ _

namespace Grammar

variable {g : Grammar} {b : Builder β ν} {first : β}

/-- Parses texts with the scanner. -/
def reader (g : Grammar) (b : Builder β ν) : Engine Scanner β ν := ⟨g, Scanner.source, b⟩

theorem tell_of_fresh (hb : b.Memoryless first) {p : Parser Scanner β}
    (hafter : b.After first p.builder) {fuel : Nat} {text : String} {told : Told ν}
    {q' : Parser Scanner β} (h : (g.reader b).tell fuel ⟨{}, first, {}⟩ text = some (told, q')) :
    ∃ q, (g.reader b).tell fuel p text = some (told, q) ∧ b.After first q.builder ∧
      q.stats = p.stats + q'.stats := by
  obtain ⟨⟨result, r'⟩, hparse, heq⟩ := Option.map_eq_some_iff.mp h
  cases heq
  have hblind : (g.reader b).recorded.Blind Scanner.Agrees (b.SameCalls first) :=
    ⟨fun hs => hs.next, fun hs => hb.recorded hs⟩
  have hbuilder : b.SameCalls first p.recorded.builder (first, []) := ⟨hafter, .start, rfl⟩
  have hnone : p.stats = p.stats + ({} : ParserStats) := rfl
  obtain ⟨r, hr, ⟨hafter', -, hcalls⟩, hstats⟩ :=
    hblind.parse Scanner.agrees_setInput hbuilder hnone hparse
  refine ⟨r.plain, ?_, hafter', hstats⟩
  rw [Engine.tell, hr, ← hcalls]
  rfl

theorem session_of_fresh (hg : g.Reached) (hb : b.Memoryless first) {fuel : Nat}
    {texts : List String}
    (hends : ∀ text ∈ texts, ∃ r, (g.reader b).parse fuel ⟨{}, first, {}⟩ text = some r)
    {m : Machine Scanner β ν} (hafter : b.After first m.parser.builder) :
    ∃ outcomes m', (g.reader b).session fuel m texts = some (outcomes.map (·.1), m') ∧
      List.Forall₂ (fun text outcome =>
        (g.reader b).tell fuel ⟨{}, first, {}⟩ text = some outcome) texts outcomes ∧
      m'.parser.stats = m.parser.stats + (outcomes.map (·.2.stats)).sum := by
  induction texts generalizing m with
  | nil => exact ⟨[], m, rfl, .nil, rfl⟩
  | cons text texts ih =>
    obtain ⟨hhead, htail⟩ := List.forall_mem_cons.mp hends
    obtain ⟨⟨told, q'⟩, hfresh⟩ := Engine.exists_tell hhead
    obtain ⟨q, htell, hafter', hstats⟩ := tell_of_fresh hb hafter hfresh
    obtain ⟨m₁, hon, rfl⟩ := Engine.exists_tellOn (e := g.reader b) hg htell
    obtain ⟨outcomes, m', hsession, hall, hsum⟩ := ih htail hafter'
    refine ⟨(told, q') :: outcomes, m', ?_, .cons hfresh hall, ?_⟩
    · simp only [Engine.session, hon, hsession, Option.bind_eq_bind, Option.bind_some,
        List.map_cons]
    · rw [hsum, hstats, ParserStats.add_assoc]
      rfl

/-- However earlier parses ended, each parse on a machine that is used again tells what a fresh
parser tells of the text, and its counters go up by those of the fresh parsers. -/
theorem session_eq_fresh (hg : g.Reached) (m : Machine Scanner β ν)
    (hb : b.Memoryless m.parser.builder) {texts : List String}
    (hends : ∀ text ∈ texts, ∃ fuel r,
      (g.reader b).parse fuel ⟨{}, m.parser.builder, {}⟩ text = some r) :
    ∃ fuel outcomes m', (g.reader b).session fuel m texts = some (outcomes.map (·.1), m') ∧
      List.Forall₂ (fun text outcome =>
        (g.reader b).tell fuel ⟨{}, m.parser.builder, {}⟩ text = some outcome) texts outcomes ∧
      m'.parser.stats = m.parser.stats + (outcomes.map (·.2.stats)).sum := by
  obtain ⟨fuel, hfuel⟩ := Engine.exists_fuel hends
  obtain ⟨outcomes, m', h⟩ := session_of_fresh hg hb hfuel .start
  exact ⟨fuel, outcomes, m', h⟩

/-! The grammar `S → ident` and `S → < S`, with a builder that counts its calls and refuses the
second rule. Of the texts one fails in the scanner inside a reference, one in the builder, one
before the sign, which would belong to the name inside a reference, and one does not fail. -/

def openSymbols : Registry :=
  ⟨Registry.new.symbols ++ [⟨"S", .nonterminal⟩, ⟨"ident", .terminal 260⟩, ⟨"<", .terminal 60⟩]⟩

def openGrammar : Grammar :=
  (((new openSymbols).setStart 2).addRule { id := 1, lhs := 2, rhs := [3] }).addRule
    { id := 2, lhs := 2, rhs := [4, 2] }

theorem openGrammar_reached : openGrammar.configure.2.Reached := by
  have hs : openSymbols.Built := Registry.built_of_nodup (by decide) (by decide) (by decide)
  refine .configure (.addRule (.addRule (.setStart (.new hs) ?_) ?_) ?_)
  all_goals decide +kernel

def counting : Builder Nat Unit :=
  ⟨fun calls _ rule _ span =>
    (if rule.id = 2 then .error (.semantic span "open") else .ok (some ()), calls + 1)⟩

def openTexts : List String := ["<#", "< a", "a-b", "a"]

theorem open_session_eq_fresh : openGrammar.configure.2.Reached ∧ counting.Memoryless 0 ∧
    ∃ fuel outcomes m', (openGrammar.configure.2.reader counting).session fuel
        ⟨[], [], none, ⟨{}, 0, {}⟩⟩ openTexts = some (outcomes.map (·.1), m') ∧
      List.Forall₂ (fun text outcome => (openGrammar.configure.2.reader counting).tell fuel
        ⟨{}, 0, {}⟩ text = some outcome) openTexts outcomes ∧
      m'.parser.stats = {} + (outcomes.map (·.2.stats)).sum := by
  have hb : counting.Memoryless 0 := fun _ _ _ _ _ _ => rfl
  have hends : ∀ text ∈ openTexts, ((openGrammar.configure.2.reader counting).parse 20
      ⟨{}, 0, {}⟩ text).isSome = true := by decide +kernel
  refine ⟨openGrammar_reached, hb, ?_⟩
  refine session_eq_fresh openGrammar_reached ⟨[], [], none, ⟨{}, 0, {}⟩⟩ hb fun text htext => ?_
  exact ⟨20, Option.isSome_iff_exists.mp (hends text htext)⟩

end Grammar

end CanonicalLR
