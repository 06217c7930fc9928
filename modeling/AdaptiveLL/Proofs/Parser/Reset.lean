import AdaptiveLL.Grammar.Samples
import AdaptiveLL.Proofs.Parser.Rerun
/-!
Parsing again. Once a parser has been reset and its tables have been cleared, nothing shows of what
it did before: it parses like a new parser with new tables.
-/
namespace AdaptiveLL

variable {σ τ : Type}

/-- The table as it is after it has been cleared `lag` times more. -/
def PredictionTable.aged (lag : Nat) (t : PredictionTable) : PredictionTable :=
  { t with generation := t.generation + lag }

namespace Tables

variable {n : Network} {t : PredictionTable}

/-- New tables are empty. -/
theorem eq_of_mem_ofNetwork (mem : t ∈ (ofNetwork n).tables) :
    t = { decision := t.decision, startState := t.startState, byPrecedence := t.byPrecedence } := by
  unfold ofNetwork at mem
  cases kind : n.kind with
  | parser =>
      simp only [kind, Array.mem_mapIdx] at mem
      obtain ⟨_, _, rfl⟩ := mem
      rfl
  | lexer =>
      simp only [kind, Array.mem_mapIdx] at mem
      obtain ⟨_, _, rfl⟩ := mem
      rfl

theorem clear_aged (mem : t ∈ (ofNetwork n).tables) (lag : Nat) :
    (t.aged lag).clear = t.aged (lag + 1) := by
  rw [eq_of_mem_ofNetwork mem]
  rfl

theorem like_aged (mem : t ∈ (ofNetwork n).tables) (lag : Nat) (R : Nat → Nat → Prop) :
    t.Like lag R (t.aged lag) := by
  rw [eq_of_mem_ofNetwork mem]
  exact ⟨[], .nil, rfl⟩

end Tables

namespace Parser

variable [TokenSource σ] {n : Network} {source : σ} {channel : Nat} {p : Parser σ τ}

/-- Clear the tables; the stacks that they refer to stay. -/
def clearTables (p : Parser σ τ) : Parser σ τ :=
  { p with simulation := { p.simulation with tables := p.simulation.tables.clear } }

/-- The parsers of somebody who reads from a source: new ones, with new tables or those of another
parser, and what becomes of these when they parse, are reset or have their tables cleared, in any
order. A parse may end in any way. Nobody prescribes a choice. -/
inductive Used (n : Network) : σ → Nat → Parser σ τ → Prop
  | new {source : σ} {channel : Nat} (prompt : TokenSource.Prompt channel source) (host : τ) :
      Used n source channel (.ofInput n (.ofNetwork n) { source, channel } host)
  | shared {source source' : σ} {channel channel' : Nat} {p : Parser σ τ} (used : Used n source channel p)
      (prompt : TokenSource.Prompt channel' source') (host : τ) :
      Used n source' channel' (.ofInput n p.simulation.tables { source := source', channel := channel' } host)
  | parse {source : σ} {channel : Nat} {p : Parser σ τ} (used : Used n source channel p)
      {u : ParserSetup τ} (fair : u.host.Pure) (rule : Nat) :
      Used n source channel ((Parsing.parse u rule).run p).2
  | reset {source : σ} {channel : Nat} {p : Parser σ τ} (used : Used n source channel p) :
      Used n source channel p.reset
  | clearTables {source : σ} {channel : Nat} {p : Parser σ τ} (used : Used n source channel p) :
      Used n source channel p.clearTables

/-- A parser for a list of tokens. -/
theorem Used.ofTokens (n : Network) (tokens : Array Token) (name : String) (channel : Nat) (host : τ) :
    Used n { tokens, name : TokenList } channel
      (.ofInput n (.ofNetwork n) { source := { tokens, name }, channel } host) :=
  .new (TokenList.Ends.prompt (fun t mem => absurd mem (Option.not_mem_none t)) channel) host

/-- What holds of a parser throughout its use: its stacks are in order, its input comes from the
source, and its tables would be new ones if they were cleared, apart from their generations. -/
structure Sane (n : Network) (source : σ) (channel : Nat) (p : Parser σ τ) : Prop where
  prompt : TokenSource.Prompt channel source
  alike : p.AlikeFrom TokenStream.Starts 0 [] p
  input : TokenStream.Leads { source, channel } p.simulation.input
  marks : p.simulation.input.marks = 0
  cleared : ∃ lag, p.simulation.tables.clear.tables
    = (Tables.ofNetwork n).tables.map (PredictionTable.aged lag)

omit [TokenSource σ] in
/-- Parsers without a tree are alike if their simulations are. -/
theorem AlikeFrom.blank {I : TokenStream σ → TokenStream σ → Prop} {lag : Nat} {older : List Report}
    {s s' : Simulation σ τ} (simulation : s.forgetful.AlikeFrom I lag older s'.forgetful) :
    AlikeFrom I lag older ({ simulation := s } : Parser σ τ) { simulation := s' } :=
  ⟨simulation, .nil, rfl, rfl⟩

theorem reset_eq (free : p.prescription = none) :
    p.reset = { simulation := { p.simulation with input := p.simulation.input.seek 0 } } := by
  rw [reset, free]
  rfl

namespace Sane

theorem new (prompt : TokenSource.Prompt channel source) (host : τ) :
    Sane n source channel (.ofInput n (.ofNetwork n) { source, channel } host) where
  prompt := prompt
  alike := .blank {
    input := ⟨.refl _, .ofSource prompt⟩
    arena := ⟨⟨.empty, nofun⟩, ⟨.empty, nofun⟩, .nil⟩
    tables := List.forall₂_same.2 fun _ mem => Tables.like_aged (Array.mem_toList_iff.1 mem) 0 _
    reports := ⟨[], rfl, .nil⟩ }
  input := .refl _
  marks := rfl
  cleared := ⟨1, Array.map_congr_left fun _ mem => Tables.clear_aged mem 0⟩

theorem shared (h : p.Sane n source channel) {source' : σ} {channel' : Nat}
    (prompt : TokenSource.Prompt channel' source') (host : τ) :
    Sane n source' channel'
      (.ofInput n p.simulation.tables { source := source', channel := channel' } host) where
  prompt := prompt
  alike := .blank { h.alike.simulation with
    input := ⟨.refl _, .ofSource prompt⟩
    reports := ⟨[], rfl, .nil⟩ }
  input := .refl _
  marks := rfl
  cleared := h.cleared

/-- What a run keeps that goes along with itself. -/
theorem parse [TokenSource.Steady σ] (h : p.Sane n source channel) {u : ParserSetup τ} (fair : u.host.Pure)
    (rule : Nat) : Sane n source channel ((Parsing.parse u rule).run p).2 := by
  have onward {q : Parser σ τ} (later : Step.Later (AlikeFrom TokenStream.Starts 0 []) p p q q) :
      q.Sane n source channel :=
    ⟨h.prompt, later.like, h.input.trans later.left.input, later.left.marks.trans h.marks, by
      rw [later.left.cleared]
      exact h.cleared⟩
  rcases (Parsing.parse_together h.alike fair rule).cases with
    ⟨a, a', q, q', run, run', later, -⟩ | ⟨e, e', q, q', run, run', later, -⟩
  · obtain rfl : q = q' := congrArg Prod.snd (run.symm.trans run')
    rw [run]
    exact onward later
  · obtain rfl : q = q' := congrArg Prod.snd (run.symm.trans run')
    rw [run]
    exact onward later

theorem reset (h : p.Sane n source channel) : p.reset.Sane n source channel := by
  have leads := h.input.trans (TokenStream.seek_leads 0 _)
  rw [reset_eq h.alike.free]
  exact {
    prompt := h.prompt
    alike := .blank { h.alike.simulation with
      input := ⟨.refl _, leads.sound (.ofSource h.prompt)⟩ }
    input := leads
    marks := (TokenStream.marks_seek 0 _).trans h.marks
    cleared := h.cleared }

theorem clearTables (h : p.Sane n source channel) : p.clearTables.Sane n source channel where
  prompt := h.prompt
  alike := {
    simulation := { h.alike.simulation with
      tables := List.forall₂_same.2 fun t mem => by
        obtain ⟨t, -, rfl⟩ := Array.mem_map.1 (Array.mem_toList_iff.1 mem)
        exact ⟨[], .nil, rfl⟩ }
    tree := h.alike.tree
    rest := rfl
    free := h.alike.free }
  input := h.input
  marks := h.marks
  cleared := by
    obtain ⟨lag, eq⟩ := h.cleared
    refine ⟨lag + 1, ?_⟩
    change p.simulation.tables.clear.tables.map PredictionTable.clear = _
    rw [eq, Array.map_map]
    exact Array.map_congr_left fun _ mem => Tables.clear_aged mem lag

/-- Reset and cleared, the parser is like a new one. -/
theorem renewed (h : p.Sane n source channel) (host : τ) :
    ∃ lag, AlikeFrom TokenStream.Starts lag p.simulation.reports.toList
      (.ofInput n (.ofNetwork n) { source, channel } host) p.reset.clearTables := by
  obtain ⟨lag, eq⟩ := h.cleared
  rw [reset_eq h.alike.free]
  -- The new parser has no stacks yet, so that none has to be matched with an older one.
  refine ⟨lag, .blank {
    input := h.input.starts (.ofSource h.prompt) rfl h.marks
    arena := ⟨⟨.empty, nofun⟩, h.alike.simulation.arena.sound', .nil⟩
    tables := ?_
    reports := ⟨[], (List.append_nil _).symm, .nil⟩ }⟩
  change List.Forall₂ _ _ p.simulation.tables.clear.tables.toList
  rw [eq, Array.toList_map]
  exact List.forall₂_map_right_iff.2 <| List.forall₂_same.2 fun _ mem =>
    Tables.like_aged (Array.mem_toList_iff.1 mem) lag _

end Sane

theorem Used.sane [TokenSource.Steady σ] (used : p.Used n source channel) : p.Sane n source channel := by
  induction used with
  | new prompt host => exact .new prompt host
  | shared _ prompt host ih => exact ih.shared prompt host
  | parse _ fair rule ih => exact ih.parse fair rule
  | reset _ ih => exact ih.reset
  | clearTables _ ih => exact ih.clearTables

/-- What two parsers call the same stacks: those that are described alike. -/
def SameStacks (p p' : Parser σ τ) (a a' : Nat) : Prop :=
  p'.simulation.tables.graph.describe a' = p.simulation.tables.graph.describe a

end Parser

namespace Parsing

/-- The ends of two parses that cannot be told apart, apart from the numbers of stacks. The second
parser had made the reports `older` before. -/
structure SameEnd (older : List Report) (x x' : Except Failure NodeId × Parser σ τ) : Prop where
  outcome : Outcome.Like (x.2.SameStacks x'.2) Eq x.1 x'.1
  tree : x.2.tree.Like (x.2.SameStacks x'.2) x'.2.tree
  root : x'.2.root = x.2.root
  errorCount : x'.2.errorCount = x.2.errorCount
  reports : ∃ newer, x'.2.simulation.reports.toList = older ++ newer ∧
    List.Forall₂ (Report.Like (x.2.SameStacks x'.2)) x.2.simulation.reports.toList newer

variable [TokenSource σ] {source : σ} {channel : Nat} {p : Parser σ τ}

omit [TokenSource σ] in
theorem SameEnd.of_alike {I : TokenStream σ → TokenStream σ → Prop} {lag : Nat} {older : List Report}
    {outcome outcome' : Except Failure NodeId} {q q' : Parser σ τ} (alike : q.AlikeFrom I lag older q')
    (same : Outcome.Like (q.simulation.Same q'.simulation) Eq outcome outcome') :
    SameEnd older (outcome, q) (outcome', q') := by
  have described (a a' : Nat) (same : q.simulation.Same q'.simulation a a') : q.SameStacks q' a a' :=
    same.describe alike.simulation.arena.sound.tidy alike.simulation.arena.sound'.tidy
  obtain ⟨newer, eq, each⟩ := alike.simulation.reports
  refine ⟨?_, alike.tree.imp described, ?_, ?_, newer, eq, each.imp fun _ _ h => h.imp described⟩
  · cases same with
    | ok same => exact .ok same
    | error same => exact .error (same.imp described)
  · rw [alike.rest]
  · rw [alike.rest]

/-- A parser that has been reset and cleared, whatever it did before, parses like a new one. -/
theorem parse_reset [TokenSource.Steady σ] {u : ParserSetup τ} (fair : u.host.Pure)
    (used : p.Used u.grammar.network source channel) (host : τ) (rule : Nat) :
    SameEnd p.simulation.reports.toList
      ((parse u rule).run
        (.ofInput u.grammar.network (.ofNetwork u.grammar.network) { source, channel } host))
      ((parse u rule).run p.reset.clearTables) := by
  obtain ⟨lag, alike⟩ := used.sane.renewed host
  rcases (parse_together alike fair rule).cases with
    ⟨a, a', q, q', run, run', later, same⟩ | ⟨e, e', q, q', run, run', later, same⟩
  · rw [run, run']
    exact .of_alike later.like (.ok same)
  · rw [run, run']
    exact .of_alike later.like (.error same)

/-- The tokens `1 + 2`, after a parser has given up on them because there were too many calls. -/
theorem parse_reset_expression : ∃ n, Samples.expression.rules.build = .ok n ∧
    let u : ParserSetup Unit := { grammar := { network := n, names := Samples.expression.names }, fuel := 100 }
    let shallow : ParserSetup Unit := { u with options := { maxDepth := 1 } }
    let sum : TokenList := { tokens := #[{ type := 1 }, { type := 3 }, { type := 1 }] }
    let new : Parser TokenList Unit := .ofInput n (.ofNetwork n) { source := sum } ()
    let p := ((parse shallow 0).run new).2
    u.host.Pure ∧ p.Used n sum Token.defaultChannel ∧
      ((parse shallow 0).run new).1 = .error (.fatal (.tooDeep 2 1)) ∧
      ((parse u 0).run p.reset.clearTables).1 = .ok 0 ∧
      SameEnd p.simulation.reports.toList ((parse u 0).run new) ((parse u 0).run p.reset.clearTables) := by
  let setup (n : Network) (options : ParserOptions) : ParserSetup Unit :=
    { grammar := { network := n, names := Samples.expression.names }, options, fuel := 100 }
  let sum : TokenList := { tokens := #[{ type := 1 }, { type := 3 }, { type := 1 }] }
  let new (n : Network) : Parser TokenList Unit := .ofInput n (.ofNetwork n) { source := sum } ()
  have ends : Samples.expression.rules.build.toOption.any (fun n =>
      let given := (parse (setup n { maxDepth := 1 }) 0).run (new n)
      given.1 = .error (.fatal (.tooDeep 2 1)) ∧
        ((parse (setup n {}) 0).run given.2.reset.clearTables).1 = .ok 0) = true := by
    decide +kernel
  cases built : Samples.expression.rules.build with
  | error e => simp [built, Except.toOption] at ends
  | ok n =>
      simp only [built, Except.toOption, Option.any_some, decide_eq_true_eq] at ends
      have fair : (setup n {}).host.Pure := fun _ _ _ _ _ _ => rfl
      have used := (Parser.Used.ofTokens n sum.tokens sum.name Token.defaultChannel ()).parse
        (u := setup n { maxDepth := 1 }) fair 0
      exact ⟨n, rfl, fair, used, ends.1, ends.2, parse_reset (u := setup n {}) fair used () 0⟩

end Parsing

end AdaptiveLL
