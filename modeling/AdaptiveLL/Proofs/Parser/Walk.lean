import AdaptiveLL.Proofs.Parser.Turn
/-!
Whole parses: the parsers that a parse goes through, one for each state that is visited, and the
turns between them.
-/
namespace AdaptiveLL

open AdaptiveLL.Parser (Acts Returns Ends Lasts)

variable {σ τ : Type} [TokenSource σ] {u : ParserSetup τ} {p p' q : Parser σ τ}
  {leaves more : List Leaf}

namespace Crosses

variable {number : Nat} {s : State} {t : Transition}

theorem lasts (h : Crosses u number s p t p' leaves) : p.Lasts u p' := by
  cases h with
  | plain | precedence => exact .refl u p
  | wrap _ _ acts => exact acts.toLasts.congr_left p.wrapped_simulation p.wrapped_prescription
  | call _ _ acts => exact acts.toLasts.congr_left p.entered_simulation p.entered_prescription
  | read _ acts | predicate acts | action acts => exact acts.toLasts

end Crosses

theorem Turn.lasts (h : Turn u p p' leaves) : p.Lasts u p' := by
  cases h with
  | edge _ _ _ acts _ _ _ crosses =>
      exact (acts.toLasts.trans crosses.lasts).trans (.of_eq rfl rfl)
  | abandon _ _ _ acts => exact acts.toLasts.congr_left rfl rfl
  | «return» _ _ _ returns _ acts => exact returns.lasts.trans (acts.toLasts.congr_left rfl rfl)

theorem Parser.Ends.lasts {root answer : NodeId} {leftRecursive : Bool}
    (h : Ends u p root leftRecursive answer p') : p.Lasts u p' := by
  cases h with
  | ordinary acts => exact acts.toLasts.congr_left p.left_simulation p.left_prescription
  | recursive acts => exact acts.toLasts.congr_left rfl rfl

/-- Turns one after the other, with the parsers at every state that is visited. -/
inductive Walks (u : ParserSetup τ) : Parser σ τ → List (Parser σ τ) → List Leaf → Parser σ τ → Prop
  | stay (p : Parser σ τ) : Walks u p [p] [] p
  | turn {p q last : Parser σ τ} {visited : List (Parser σ τ)} {leaves more : List Leaf}
      (first : Turn u p q leaves) (rest : Walks u q visited more last) :
      Walks u p (p :: visited) (leaves ++ more) last

namespace Walks

variable {visited : List (Parser σ τ)} {last : Parser σ τ}

theorem lasts (h : Walks u p visited leaves last) : p.Lasts u last := by
  induction h with
  | stay p => exact .refl u p
  | turn first _ ih => exact first.lasts.trans ih

theorem last_mem (h : Walks u p visited leaves last) : last ∈ visited := by
  induction h with
  | stay => exact .head _
  | turn _ _ ih => exact .tail _ ih

end Walks

/-- The last state visited is the stop of the start rule, where the parse ends. -/
structure Parser.Concludes (u : ParserSetup τ) (p : Parser σ τ) (leftRecursive : Bool)
    (root answer : NodeId) (p' : Parser σ τ) : Prop where
  stop : ∃ s, u.grammar.network.states[p.state]? = some s ∧ s.isRuleStop = true
  outermost : p.AtRoot
  ends : Ends u p root leftRecursive answer p'

namespace Parsing

/-- The parsers at the states that are visited, at most `fuel` of them. -/
def visitedFrom (u : ParserSetup τ) (leftRecursive : Bool) (root : NodeId) :
    Nat → Parser σ τ → List (Parser σ τ)
  | 0, _ => []
  | fuel + 1, p =>
      p :: match (turn u leftRecursive root).run p with
        | (.ok none, p') => visitedFrom u leftRecursive root fuel p'
        | _ => []

/-- What turns keep holds of every parser visited. -/
theorem visitedFrom_keeps {Inv : Parser σ τ → Prop} (leftRecursive : Bool) (root : NodeId)
    (step : ∀ p p' leaves, Inv p → p.input.Placed → Turn u p p' leaves → Inv p') (fuel : Nat)
    (start : Inv p) (placed : p.input.Placed) :
    ∀ q ∈ visitedFrom u leftRecursive root fuel p, Inv q := by
  induction fuel generalizing p with
  | zero => simp [visitedFrom]
  | succ fuel ih =>
      intro q mem
      rcases List.mem_cons.1 mem with rfl | mem
      · exact start
      split at mem
      case h_1 p' run =>
          obtain ⟨leaves, turned⟩ := (turn_ensures placed leftRecursive root).ok run
          exact ih (step p p' leaves start placed turned) (turned.lasts.input.placed placed) q mem
      case h_2 => simp at mem

theorem visitStates_ensures (leftRecursive : Bool) (root : NodeId) (fuel : Nat)
    (placed : p.input.Placed) : (visitStates u leftRecursive root fuel).Ensures p
      (fun answer p' => ∃ leaves last,
        Walks u p (visitedFrom u leftRecursive root fuel p) leaves last ∧
        last.Concludes u leftRecursive root answer p')
      fun e p' => p.Lasts u p' ∧ ¬ (∃ error, e = .recoverable error) ∧
        ∀ error, e = .fatal (.network error) →
          ∃ q ∈ visitedFrom u leftRecursive root fuel p, Stuck u q := by
  induction fuel generalizing p with
  | zero => exact .of_error rfl ⟨.refl u p, by simp, by simp⟩
  | succ fuel ih =>
      rw [visitStates_succ]
      have turns := turn_ensures (u := u) placed leftRecursive root
      obtain ⟨outcome, p₁, run⟩ : ∃ outcome p₁, (turn u leftRecursive root).run p = (outcome, p₁) :=
        ⟨_, _, rfl⟩
      rw [visitedFrom, run]
      match outcome with
      | .error e =>
          obtain ⟨lasts, unrecoverable, stuck⟩ := turns.error run
          refine .bind (.of_error run ⟨lasts, unrecoverable, fun error eq => ?_⟩)
          exact ⟨p, .head _, stuck error eq⟩
      | .ok (some answer) =>
          obtain ⟨stop, outermost, ends⟩ := turns.ok run
          exact .bind (.of_ok run (.of_ok rfl ⟨[], p, .stay p, stop, outermost, ends⟩))
      | .ok none =>
          obtain ⟨leaves, turned⟩ := turns.ok run
          refine .bind (.of_ok run ((ih (turned.lasts.input.placed placed)).imp ?_ ?_))
          · rintro answer p' ⟨more, last, walks, concludes⟩
            exact ⟨leaves ++ more, last, .turn turned walks, concludes⟩
          · rintro e p' ⟨lasts, unrecoverable, stuck⟩
            refine ⟨turned.lasts.trans lasts, unrecoverable, fun error eq => ?_⟩
            obtain ⟨q, mem, stuck⟩ := stuck error eq
            exact ⟨q, .tail _ mem, stuck⟩

/-- The part of a parse before states are visited. -/
def enter (u : ParserSetup τ) (rule : Nat) : Parsing σ τ NodeId := do
  let start ← Step.required (.invalidRule rule) u.grammar.network.ruleStarts[rule]?
  let root ← newContext none none rule
  modify fun p => { p with root := some root }
  enterCall u root start rule 0
  return root

theorem parse_eq (rule : Nat) : (parse u rule : Parsing σ τ NodeId) = enter u rule >>= fun root =>
    visitStates u (u.grammar.network.isLeftRecursiveRule rule) root u.fuel := by
  simp [parse, enter]

/-- The parsers at the states that a parse visits. -/
def visited (u : ParserSetup τ) (rule : Nat) (p : Parser σ τ) : List (Parser σ τ) :=
  match (enter u rule).run p with
  | (.ok root, q) => visitedFrom u (u.grammar.network.isLeftRecursiveRule rule) root u.fuel q
  | _ => []

theorem enter_ensures (rule : Nat) : (enter u rule).Ensures p
    (fun root p' => root = p.tree.size ∧ ∃ start, u.grammar.network.ruleStarts[rule]? = some start ∧
      p.depth < u.options.maxDepth ∧ Acts u (p.entered u none none rule start 0) p' [])
    fun e p' => p.Lasts u p' ∧ ¬ (∃ error, e = .recoverable error) ∧
      ∀ error, e = .fatal (.network error) → u.grammar.network.ruleStarts[rule]? = none := by
  unfold enter
  obtain missing | ⟨start, starts⟩ := Option.eq_none_or_eq_some u.grammar.network.ruleStarts[rule]?
  · rw [missing]
    exact .of_error rfl ⟨.refl u p, by simp, fun _ _ => rfl⟩
  · rw [starts]
    refine .bind (.of_ok (t := p) rfl (.bind (.of_ok (newContext_run _ _ _ p) ?_)))
    have enters := enterCall_ensures (u := u) (p := p) none none rule start 0
      (some p.tree.size)
    refine .bind (.of_ok rfl (.bind (enters.imp ?_ ?_)))
    · rintro _ p' ⟨room, acts⟩
      exact .of_ok rfl ⟨rfl, start, rfl, room, acts⟩
    · rintro e p' ⟨lasts, rfl⟩
      exact ⟨lasts, by simp, by simp⟩

end Parsing

end AdaptiveLL
