import AdaptiveLL.Parser.Parse
import AdaptiveLL.Proofs.Prediction.Adaptive
import AdaptiveLL.Proofs.Tree.Outline
/-!
What the moves of a parser that enter and leave no rule do to it. They leave its stacks as they
are, pass tokens of the input and put leaves under the current context. As long as no error is
counted, what they put there are terminals.
-/
namespace AdaptiveLL

/-- The token of the input that the leaf holds. The end of the input is none, and neither is a
token that was made up. -/
def Leaf.passed? (l : Leaf) : Option Token :=
  if l.token.index.isSome && !l.token.isEof then some l.token else none

/-- All the leaves are error nodes. -/
def Leaf.AllErrors (leaves : List Leaf) : Prop :=
  ∀ l ∈ leaves, l.isError = true

theorem Leaf.AllErrors.nil : AllErrors [] := by simp [AllErrors]

theorem Leaf.AllErrors.one (token : Token) : AllErrors [⟨token, true⟩] := by simp [AllErrors]

theorem Leaf.AllErrors.append {first second : List Leaf} (h : AllErrors first)
    (h' : AllErrors second) : AllErrors (first ++ second) :=
  List.forall_mem_append.2 ⟨h, h'⟩

variable {σ τ α β : Type} [TokenSource σ]

namespace Parser

/-- What a parser tells a prediction, with the calls of `node` as the outer context. -/
def situation (u : ParserSetup τ) (node : Option NodeId) (p : Parser σ τ) : Situation τ where
  node
  invoking := p.tree.invokingStates node
  precedence := p.precedence
  state := p.state
  ask := u.host.predicate p.tree

/-- The prediction that a parser makes. -/
def question (u : ParserSetup τ) (decision : Nat) (node : Option NodeId) (p : Parser σ τ) :
    Step (Simulation σ τ) Nat :=
  Prediction.adaptivePredict u.grammar u.options.predictionMode u.fuel decision (p.situation u node)

theorem run_predict {u : ParserSetup τ} {decision : Nat} {node : Option NodeId} {p : Parser σ τ}
    {outcome : Except Failure Nat} {s : Simulation σ τ}
    (run : (p.question u decision node).run p.simulation = (outcome, s)) :
    (Parsing.predict u decision node).run p = (outcome, { p with simulation := s }) := by
  change (Step.ofOutcome ((p.question u decision node).run p.simulation).1).run
    { p with simulation := ((p.question u decision node).run p.simulation).2 } = _
  rw [run, Step.run_ofOutcome]

/-- What lasts whatever happens: the tokens that were pulled, and what the tables are about. -/
structure Lasts (u : ParserSetup τ) (p p' : Parser σ τ) : Prop where
  input : p.input.Leads p'.input
  starts : p'.simulation.tables.starts = p.simulation.tables.starts
  within : ∀ P, u.grammar.network.Offers P → p.simulation.tables.Within P →
    p'.simulation.tables.Within P
  prescription : p.prescription = none → p'.prescription = none

theorem Lasts.refl (u : ParserSetup τ) (p : Parser σ τ) : p.Lasts u p :=
  ⟨.refl _, rfl, fun _ _ => id, id⟩

theorem Lasts.trans {u : ParserSetup τ} {p p' p'' : Parser σ τ} (first : p.Lasts u p')
    (second : p'.Lasts u p'') : p.Lasts u p'' where
  input := first.input.trans second.input
  starts := second.starts.trans first.starts
  within P offers h := second.within P offers (first.within P offers h)
  prescription h := second.prescription (first.prescription h)

theorem Lasts.of_eq {u : ParserSetup τ} {p p' : Parser σ τ} (simulation : p'.simulation = p.simulation)
    (prescription : p'.prescription = p.prescription) : p.Lasts u p' where
  input := by
    rw [Parser.input, Parser.input, simulation]
    exact .refl _
  starts := by rw [simulation]
  within _ _ h := simulation ▸ h
  prescription h := prescription.trans h

/-- What lasts depends on nothing else than the simulation and the prescription. -/
theorem Lasts.congr_left {u : ParserSetup τ} {p q p' : Parser σ τ} (h : q.Lasts u p')
    (simulation : q.simulation = p.simulation) (prescription : q.prescription = p.prescription) :
    p.Lasts u p' :=
  (Lasts.of_eq simulation prescription).trans h

/-- The moves between `p` and `p'` pass tokens and put `leaves` under the current context. -/
structure Acts (u : ParserSetup τ) (p p' : Parser σ τ) (leaves : List Leaf) : Prop
    extends Lasts u p p' where
  context : p'.context = p.context
  state : p'.state = p.state
  precedences : p'.precedences = p.precedences
  recursions : p'.recursions = p.recursions
  depth : p'.depth = p.depth
  keeps : p.tree.Keeps p'.tree
  grafts : u.options.buildTrees = true → p'.tree.outline = p.tree.outline.graft p.context leaves
  errors : p.errorCount ≤ p'.errorCount
  calm : p'.errorCount = p.errorCount → p.recovery.active = false →
    p'.recovery.active = false ∧ ∀ l ∈ leaves, l.isError = false
  passes : p.input.Passes p'.input (leaves.filterMap Leaf.passed?)

namespace Acts

variable {u : ParserSetup τ} {p p' p'' : Parser σ τ} {first second : List Leaf}

theorem refl (u : ParserSetup τ) (p : Parser σ τ) : Acts u p p [] where
  toLasts := .refl u p
  context := rfl
  state := rfl
  precedences := rfl
  recursions := rfl
  depth := rfl
  keeps := .refl _
  grafts _ := (ParseTree.graft_nil _ _).symm
  errors := Nat.le_refl _
  calm _ h := ⟨h, by simp⟩
  passes := .refl _

theorem trans {l m : List Leaf} (h : Acts u p p' l) (h' : Acts u p' p'' m) :
    Acts u p p'' (l ++ m) where
  toLasts := h.toLasts.trans h'.toLasts
  context := h'.context.trans h.context
  state := h'.state.trans h.state
  precedences := h'.precedences.trans h.precedences
  recursions := h'.recursions.trans h.recursions
  depth := h'.depth.trans h.depth
  keeps := h.keeps.trans h'.keeps
  grafts build := by
    rw [h'.grafts build, h.context, h.grafts build, ParseTree.graft_append]
  errors := Nat.le_trans h.errors h'.errors
  calm same idle := by
    have le := h.errors
    have le' := h'.errors
    obtain ⟨idle, clean⟩ := h.calm (by omega) idle
    obtain ⟨idle, clean'⟩ := h'.calm (by omega) idle
    refine ⟨idle, fun l mem => ?_⟩
    rcases List.mem_append.1 mem with mem | mem
    · exact clean l mem
    · exact clean' l mem
  passes := by
    rw [List.filterMap_append]
    exact h.passes.trans h'.passes

/-- The state of the parser does not matter. -/
theorem at_state (h : Acts u p p' first) (state : Nat) :
    Acts u { p with state } { p' with state } first :=
  { h with
    input := h.input
    starts := h.starts
    within := h.within
    prescription := h.prescription
    state := rfl
    grafts := h.grafts
    calm := h.calm
    passes := h.passes }

/-- Which node was the root of the last parse does not matter either. -/
theorem at_root (h : Acts u p p' first) (root : Option NodeId) :
    Acts u p { p' with root } first :=
  { h with
    input := h.input
    starts := h.starts
    within := h.within
    prescription := h.prescription
    grafts := h.grafts
    calm := h.calm
    passes := h.passes }

/-- A change of the simulation that leaves the tables and the place of the input. -/
theorem of_simulation {s : Simulation σ τ} (input : p.input.Passes s.input [])
    (tables : s.tables = p.simulation.tables) : Acts u p { p with simulation := s } [] :=
  { refl u p with
    input := input.toLeads
    starts := congrArg Tables.starts tables
    within := fun _ _ h => tables ▸ h
    prescription := id
    passes := input }

/-- A change of notes in the tree. -/
theorem of_tree {t : ParseTree} (keeps : p.tree.Keeps t) (outline : t.outline = p.tree.outline) :
    Acts u p { p with tree := t } [] :=
  { refl u p with
    input := .refl _
    starts := rfl
    within := fun _ _ => id
    prescription := id
    keeps
    grafts := fun _ => outline.trans (ParseTree.graft_nil _ _).symm
    passes := .refl _ }

theorem of_recovery {r : Recovery} (idle : p.recovery.active = false → r.active = false) :
    Acts u p { p with recovery := r } [] :=
  { refl u p with
    input := .refl _
    starts := rfl
    within := fun _ _ => id
    prescription := id
    calm := fun _ h => ⟨idle h, by simp⟩
    passes := .refl _ }

end Acts

/-- A failure leaves the parser where it could go on, if it is recoverable. The two propositions
say when a defect of the network and when a mistake of the input is possible. -/
structure Fails (u : ParserSetup τ) (Network Recoverable : Prop) (p : Parser σ τ) (e : Failure)
    (p' : Parser σ τ) : Prop where
  lasts : p.Lasts u p'
  network : ∀ error, e = .fatal (.network error) → Network
  recoverable : ∀ error, e = .recoverable error →
    Recoverable ∧ ∃ leaves, Acts u p p' leaves ∧ Leaf.AllErrors leaves

end Parser

open AdaptiveLL.Parser (Acts Fails)

/-- A move of a parser that ends as `Done` says of the answer, the parser and the leaves. -/
def Does (u : ParserSetup τ) (Network Recoverable : Prop) (x : Parsing σ τ α) (p : Parser σ τ)
    (Done : α → Parser σ τ → List Leaf → Prop) : Prop :=
  x.Ensures p (fun a p' => ∃ leaves, Acts u p p' leaves ∧ Done a p' leaves)
    (Fails u Network Recoverable p)

namespace Does

variable {u : ParserSetup τ} {N N' R R' : Prop} {x : Parsing σ τ α} {p p' : Parser σ τ} {a : α}
  {Done Done' : α → Parser σ τ → List Leaf → Prop} {Result : β → Parser σ τ → List Leaf → Prop}
  {f : α → Parsing σ τ β} {leaves : List Leaf}

theorem pure (h : Done a p []) : Does u N R (Pure.pure a) p Done :=
  ⟨[], .refl u p, h⟩

theorem of_ok {l : List Leaf} (run : x.run p = (.ok a, p')) (acts : Acts u p p' l)
    (h : Done a p' l) : Does u N R x p Done :=
  Step.Ensures.of_ok run ⟨l, acts, h⟩

theorem recoverable {e : RecognitionError} (possible : R) :
    Does u N R (throw (.recoverable e) : Parsing σ τ α) p Done :=
  .of_error rfl ⟨.refl u p, by simp, fun _ _ => ⟨possible, [], .refl u p, .nil⟩⟩

theorem fault {f : Fault} : Does u N R (throw (.fault f) : Parsing σ τ α) p Done :=
  .of_error rfl ⟨.refl u p, by simp, by simp⟩

theorem fatal {e : ParseError} (network : ∀ error, e = .network error → N) :
    Does u N R (throw (.fatal e) : Parsing σ τ α) p Done :=
  .of_error rfl ⟨.refl u p, fun error eq => network error (by injection eq), by simp⟩

theorem imp (h : Does u N R x p Done)
    (done : ∀ a p' leaves, Acts u p p' leaves → Done a p' leaves → Done' a p' leaves) :
    Does u N R x p Done' := by
  refine Step.Ensures.imp h ?_ fun _ _ => id
  rintro a p' ⟨leaves, acts, holds⟩
  exact ⟨leaves, acts, done a p' leaves acts holds⟩

theorem weaken {M : Prop} (h : Does u N R x p Done) (network : N → M) (recoverable : R → R') :
    Does u M R' x p Done :=
  Step.Ensures.imp h (fun _ _ => id) fun _ _ fails =>
    ⟨fails.lasts, fun error eq => network (fails.network error eq),
      fun error eq => (fails.recoverable error eq).imp recoverable id⟩

/-- A failure after a first part is one of the whole, if that part has put error nodes alone. -/
theorem fails_trans (acts : Acts u p p' leaves) (errors : Leaf.AllErrors leaves)
    {e : Failure} {p'' : Parser σ τ} (h : Fails u N R p' e p'') : Fails u N R p e p'' where
  lasts := acts.toLasts.trans h.lasts
  network := h.network
  recoverable error eq := by
    obtain ⟨possible, more, acts', errors'⟩ := h.recoverable error eq
    exact ⟨possible, leaves ++ more, acts.trans acts', errors.append errors'⟩

theorem bind (h : Does u N R x p fun a p' leaves => Leaf.AllErrors leaves ∧
      Does u N R (f a) p' fun b p'' more => Result b p'' (leaves ++ more)) :
    Does u N R (x >>= f) p Result := by
  refine Step.Ensures.bind (Step.Ensures.imp h ?_ fun _ _ => id)
  rintro a p' ⟨leaves, acts, errors, rest⟩
  refine Step.Ensures.imp rest ?_ fun e p'' => fails_trans acts errors
  rintro b p'' ⟨more, acts', holds⟩
  exact ⟨leaves ++ more, acts.trans acts', holds⟩

/-- A first part whose outcome is known. -/
theorem step (run : x.run p = (.ok a, p')) (acts : Acts u p p' [])
    (rest : Does u N R (f a) p' Result) : Does u N R (x >>= f) p Result :=
  bind (of_ok run acts ⟨.nil, rest⟩)

/-- A first part that puts no leaves. -/
theorem query (h : Does u N R x p fun a p' leaves => leaves = [] ∧ Does u N R (f a) p' Result) :
    Does u N R (x >>= f) p Result :=
  bind (h.imp fun _ _ leaves _ ⟨empty, rest⟩ => by
    subst empty
    exact ⟨.nil, rest⟩)

theorem required {error : NetworkError} {answer : Option α} (missing : answer = none → N)
    (rest : ∀ a, answer = some a → Does u N R (f a) p Result) :
    Does u N R (Step.required error answer >>= f) p Result := by
  cases answer with
  | some a => exact rest a rfl
  | none => exact fatal fun _ _ => missing rfl

/-- A last part that cannot fail. -/
theorem ending (h : Does u N R x p fun a p' leaves => ∃ b p'' more, (f a).run p' = (.ok b, p'') ∧
      Acts u p' p'' more ∧ Result b p'' (leaves ++ more)) : Does u N R (x >>= f) p Result := by
  refine Step.Ensures.bind (Step.Ensures.imp h ?_ fun _ _ => id)
  rintro a p' ⟨leaves, acts, b, p'', more, run, acts', holds⟩
  exact .of_ok run ⟨leaves ++ more, acts.trans acts', holds⟩

theorem ite {c : Prop} [Decidable c] {y : Parsing σ τ α} (yes : c → Does u N R x p Done)
    (no : ¬ c → Does u N R y p Done) : Does u N R (if c then x else y) p Done := by
  split
  · exact yes ‹_›
  · exact no ‹_›

theorem ofQuestion {answer : Except Fault α} (h : ∀ a, answer = .ok a → Done a p []) :
    Does u N R (Step.ofQuestion answer) p Done := by
  cases answer with
  | ok a => exact pure (h a rfl)
  | error fault => exact .of_error rfl ⟨.refl u p, by simp, by simp⟩

end Does

end AdaptiveLL
