import AdaptiveLL.Prediction.Adaptive
import AdaptiveLL.Proofs.Network.Lookahead
import AdaptiveLL.Proofs.Prediction.Alternatives
import AdaptiveLL.Proofs.Step.Contract
import AdaptiveLL.Proofs.Stream.Prefetch
/-!
What a prediction does to the simulation. It pulls tokens and puts the cursor back, it adds
to the tables only what is about alternatives of their decisions, and it answers with such an
alternative or with a recognition error.
-/
namespace AdaptiveLL

variable {σ τ : Type} [TokenSource σ]

/-- What holds of the numbers of the edges of a state holds of its alternatives. -/
def Network.Offers (n : Network) (P : Nat → Nat → Prop) : Prop :=
  ∀ q s, n.states[q]? = some s → ∀ a, 1 ≤ a → a ≤ s.transitions.length → P q a

/-- What becomes of a host that is asked while the cursor is at one place of the input. -/
inductive Situation.Asked (c : Situation τ) (place : Nat) : τ → τ → Prop
  | none (host : τ) : Asked c place host host
  | ask {before host : τ} (earlier : Asked c place before host) (question : Question)
      (here : question.position = place) : Asked c place before (c.ask question host).2

/-- The input has been read before, and the cursor is where the decision stands. -/
structure Simulation.Begins (q : Problem τ) (s : Simulation σ τ) : Prop where
  sound : s.input.Sound
  position : s.input.position = some q.start

/-- What stays true during a prediction that began in the simulation `s₀`. -/
structure Simulation.Follows (q : Problem τ) (P : Nat → Nat → Prop) (s₀ s : Simulation σ τ) :
    Prop where
  input : s₀.input.Leads s.input
  marks : s.input.marks = s₀.input.marks
  host : s₀.Begins q → q.situation.Asked q.start s₀.host s.host
  starts : s.tables.starts = s₀.tables.starts
  within : s.tables.Within P

/-- Besides, the cursor is back where the decision stands. -/
structure Simulation.Returns (q : Problem τ) (P : Nat → Nat → Prop) (s₀ s : Simulation σ τ) :
    Prop extends s₀.Follows q P s where
  here : s₀.Begins q → s.input.index = q.start

namespace Simulation.Follows

variable {P : Nat → Nat → Prop} {q : Problem τ} {s₀ s s' : Simulation σ τ}

theorem refl (within : s₀.tables.Within P) : Follows q P s₀ s₀ where
  input := .refl _
  marks := rfl
  host _ := .none _
  starts := rfl
  within := within

/-- Only the input, the tables and the host matter. -/
theorem of_eq (h : Follows q P s₀ s) (input : s'.input = s.input)
    (tables : s'.tables.tables = s.tables.tables) (host : s'.host = s.host) :
    Follows q P s₀ s' where
  input := input ▸ h.input
  marks := input ▸ h.marks
  host := host ▸ h.host
  starts := by rw [Tables.starts, tables]; exact h.starts
  within table mem := h.within table (tables ▸ mem)

/-- Looking ahead passes nothing and leaves the marks alone. -/
theorem of_leads (h : Follows q P s₀ s) (input : s.input.Leads s'.input)
    (marks : s'.input.marks = s.input.marks) (tables : s'.tables = s.tables)
    (host : s'.host = s.host) : Follows q P s₀ s' where
  input := h.input.trans input
  marks := marks.trans h.marks
  host := host ▸ h.host
  starts := tables ▸ h.starts
  within := tables ▸ h.within

end Simulation.Follows

namespace Prediction

open Step (Keeps Observes)

section Simulation

variable {P : Nat → Nat → Prop} {s₀ : Simulation σ τ} {q : Problem τ} {Q : Nat → Prop}

theorem addTo_keeps {set : ConfigurationSet} {c : Configuration} (h : set.Within Q)
    (thread : Q c.alt) : Keeps (s₀.Follows q P) (addTo set c) (·.Within Q) :=
  .bind .get fun _ _ =>
    .bind (.modify fun _ inv => inv.of_eq rfl rfl rfl) fun _ _ => .pure (h.insert thread)

theorem pushFrame_keeps (parent resume : Nat) :
    Keeps (s₀.Follows q P) (pushFrame parent resume) fun _ => True :=
  .bind .get fun _ _ => .bind (.modify fun _ inv => inv.of_eq rfl rfl rfl) fun _ _ => .pure trivial

theorem ask_keeps (node : Option NodeId) (rule index : Nat) :
    Keeps (s₀.Returns q P) (ask q node rule index) fun _ => True := by
  refine .bind .get fun s inv => .bind (.set ?_) fun _ _ => .pure trivial
  refine { inv with host := fun begins => ?_ }
  exact .ask (inv.host begins) _ (inv.here begins)

omit [TokenSource σ] in
mutual

/-- Evaluating a guard keeps what asking the host keeps. -/
theorem eval_keeps {Mild : Failure → Prop} {Inv : Simulation σ τ → Prop}
    (asks : ∀ node rule index, Observes Mild Inv (ask q node rule index) fun _ => True)
    (node : Option Nat) (g : Guard) : Observes Mild Inv (g.eval (evaluator q) node) fun _ => True :=
  match g with
  | .always => .pure trivial
  | .predicate rule index _ => asks _ rule index
  | .precedence _ => .pure trivial
  | .all gs => evalAll_keeps asks node gs
  | .any gs => evalAny_keeps asks node gs

theorem evalAll_keeps {Mild : Failure → Prop} {Inv : Simulation σ τ → Prop}
    (asks : ∀ node rule index, Observes Mild Inv (ask q node rule index) fun _ => True)
    (node : Option Nat) (gs : List Guard) :
    Observes Mild Inv (Guard.evalAll (evaluator q) node gs) fun _ => True :=
  match gs with
  | [] => .pure trivial
  | g :: rest =>
      .bind (eval_keeps asks node g) fun _ _ =>
        .ite (fun _ => evalAll_keeps asks node rest) fun _ => .pure trivial

theorem evalAny_keeps {Mild : Failure → Prop} {Inv : Simulation σ τ → Prop}
    (asks : ∀ node rule index, Observes Mild Inv (ask q node rule index) fun _ => True)
    (node : Option Nat) (gs : List Guard) :
    Observes Mild Inv (Guard.evalAny (evaluator q) node gs) fun _ => True :=
  match gs with
  | [] => .pure trivial
  | g :: rest =>
      .bind (eval_keeps asks node g) fun _ _ =>
        .ite (fun _ => .pure trivial) fun _ => evalAny_keeps asks node rest

end

omit [TokenSource σ] in
mutual

/-- Evaluating precedences changes nothing. -/
theorem evalPrecedence_keeps {Mild : Failure → Prop} {Inv : Simulation σ τ → Prop}
    (node : Option Nat) (g : Guard) :
    Observes Mild Inv (g.evalPrecedence (evaluator q) node) fun _ => True := by
  match g with
  | .always => exact .pure trivial
  | .predicate .. => exact .pure trivial
  | .precedence _ =>
      refine .bind (.pure (R := fun _ => True) trivial) fun _ _ => ?_
      exact .ite (fun _ => .pure trivial) fun _ => .pure trivial
  | .all gs =>
      rw [Guard.evalPrecedence]
      refine .bind (remainingAll_keeps node gs) fun remaining _ => ?_
      match remaining with
      | none => exact .pure trivial
      | some _ => exact .ite (fun _ => .pure trivial) fun _ => .pure trivial
  | .any gs =>
      rw [Guard.evalPrecedence]
      refine .bind (remainingAny_keeps node gs) fun remaining _ => ?_
      match remaining with
      | none => exact .pure trivial
      | some [] => exact .ite (fun _ => .pure trivial) fun _ => .pure trivial
      | some (_ :: _) => exact .ite (fun _ => .pure trivial) fun _ => .pure trivial

theorem remainingAll_keeps {Mild : Failure → Prop} {Inv : Simulation σ τ → Prop}
    (node : Option Nat) (gs : List Guard) :
    Observes Mild Inv (Guard.remainingAll (evaluator q) node gs) fun _ => True := by
  match gs with
  | [] => exact .pure trivial
  | g :: rest =>
      rw [Guard.remainingAll]
      refine .bind (evalPrecedence_keeps node g) fun remaining _ => ?_
      match remaining with
      | none => exact .pure trivial
      | some _ =>
          refine .bind (remainingAll_keeps node rest) fun others _ => ?_
          match others with
          | none => exact .pure trivial
          | some _ => exact .pure trivial

theorem remainingAny_keeps {Mild : Failure → Prop} {Inv : Simulation σ τ → Prop}
    (node : Option Nat) (gs : List Guard) :
    Observes Mild Inv (Guard.remainingAny (evaluator q) node gs) fun _ => True := by
  match gs with
  | [] => exact .pure trivial
  | g :: rest =>
      rw [Guard.remainingAny]
      refine .bind (evalPrecedence_keeps node g) fun remaining _ => ?_
      split
      · exact .pure trivial
      · refine .bind (remainingAny_keeps node rest) fun others _ => ?_
        match others with
        | none => exact .pure trivial
        | some _ => exact .pure trivial
      · exact remainingAny_keeps node rest

end

theorem holds_keeps (g : Guard) : Keeps (s₀.Returns q P) (holds q g) fun _ => True :=
  eval_keeps ask_keeps _ g

theorem admits_keeps (g : Guard) : Keeps (s₀.Returns q P) (admits q g) fun _ => True :=
  .ite (fun _ => .pure trivial) fun _ => holds_keeps g

theorem onInput_keeps {α : Type} {f : TokenStream σ → α × TokenStream σ}
    (leads : ∀ input : TokenStream σ, input.Leads (f input).2)
    (marks : ∀ input : TokenStream σ, (f input).2.marks = input.marks) :
    Keeps (s₀.Follows q P) (onInput f) fun _ => True := by
  refine .bind .get fun s inv => .bind (.set ?_) fun _ _ => .pure trivial
  exact inv.of_leads (leads s.input) (marks s.input) rfl rfl

theorem current_keeps : Keeps (s₀.Follows q P) current fun _ => True :=
  onInput_keeps (fun input => (input.lookahead_passes 1).toLeads) (TokenStream.marks_lookahead 1)

omit [TokenSource σ] in
/-- Where the cursor stands can be asked without doing anything. -/
theorem index_keeps {Mild : Failure → Prop} {Inv : Simulation σ τ → Prop} :
    Observes Mild Inv index fun _ => True :=
  .bind .get fun _ _ => .pure trivial

theorem seek_keeps (place : Nat) : Keeps (s₀.Follows q P) (seek place) fun _ => True :=
  onInput_keeps (TokenStream.seek_leads place) (TokenStream.marks_seek place)

/-- The cursor goes back to the decision for a while. -/
theorem return_keeps {α β : Type} {x : Prediction σ τ α} {f : α → Prediction σ τ β}
    {Answer : α → Prop} {R : β → Prop} (h : Keeps (s₀.Returns q P) x Answer)
    (rest : ∀ a, Answer a → Keeps (s₀.Follows q P) (f a) R) :
    Keeps (s₀.Follows q P) (seek q.start >>= fun _ => x >>= f) R := by
  intro s inv
  have moved : s₀.Follows q P { s with input := s.input.seek q.start } :=
    inv.of_leads (s.input.seek_leads q.start) (TokenStream.marks_seek _ _) rfl rfl
  have back : s₀.Returns q P { s with input := s.input.seek q.start } := by
    refine ⟨moved, fun begins => ?_⟩
    have index : s₀.input.index = q.start := by simp [TokenStream.index, begins.position]
    have passes := TokenStream.seek_back inv.input
    rw [index] at passes
    exact passes.stays begins.sound begins.position
  refine .bind (.of_ok rfl (.bind ((h _ back).imp ?_ ?_)))
  · rintro a s' ⟨inv, holds⟩
    exact rest a holds s' inv.toFollows
  · rintro e s' ⟨inv, mild⟩
    exact ⟨inv.toFollows, mild⟩

theorem advance_keeps (symbol : Symbol) : Keeps (s₀.Follows q P) (advance symbol) fun _ => True :=
  .ite (fun _ => .pure trivial) fun _ =>
    .bind (onInput_keeps TokenStream.consume_leads TokenStream.marks_consume) fun _ _ => current_keeps

end Simulation

section Carried

/-- Wherever threads go from places of this kind, they come to places of this kind; the sets are
those of such threads. A thread is told by its alternative and its state. -/
structure Carries (q : Problem τ) (Mild : Failure → Prop) (Inv : Simulation σ τ → Prop)
    (At : Nat → Nat → Prop) (Among : ConfigurationSet → Prop) : Prop where
  exhausted : Mild (.fault .exhausted)
  decision : ∀ f, q.grammar.network.state q.decisionState = .error f → Mild (.fault f)
  known : ∀ {alt here : Nat}, At alt here →
    ∀ f, q.grammar.network.state here = .error f → Mild (.fault f)
  following : ∀ {alt here : Nat}, At alt here →
    ∀ f, q.grammar.network.nextTokens here = .error f → Mild (.fault f)
  edge : ∀ {alt here : Nat} {s : State} {t : Transition}, At alt here →
    q.grammar.network.states[here]? = some s → t ∈ s.transitions → At alt t.target
  back : ∀ {alt here id : Nat} {s : Simulation σ τ} {e : Nat × Nat}, At alt here → Inv s →
    e ∈ (s.tables.graph.node id).entries → e.2 ≠ noState → At alt e.2
  finish : ∀ {alt here rule stop : Nat}, At alt here →
    q.grammar.network.ruleStops[rule]? = some stop → At alt stop
  empty : ∀ fullContext, Among { fullContext }
  threads : ∀ {set : ConfigurationSet}, Among set → ∀ c ∈ set.toList, At c.alt c.state
  dips : ∀ {set : ConfigurationSet}, Among set → Among { set with dipsOutside := true }
  adds : ∀ {set : ConfigurationSet} {c : Configuration}, Among set → At c.alt c.state →
    Observes Mild Inv (addTo set c) Among
  pushes : ∀ {parent origin target rule follow : Nat} {s : State} {precedence : Int},
    q.grammar.network.states[origin]? = some s →
      .call target rule precedence follow ∈ s.transitions →
        Observes Mild Inv (pushFrame parent follow) fun _ => True
  judges : ∀ {β : Type} {R : β → Prop} {f : Bool → Prediction σ τ β} (here : Nat) (g : Guard),
    (∀ answer, Observes Mild Inv (f answer) R) → Observes Mild Inv (do
      seek q.start
      let answer ← holds q g
      seek here
      f answer) R

variable {q : Problem τ} {Mild : Failure → Prop} {Inv : Simulation σ τ → Prop}
  {At : Nat → Nat → Prop} {Among : ConfigurationSet → Prop} {c : Configuration}
  {set : ConfigurationSet} {s : State} {t : Transition} {acc : Closure}
  {onward : Bool → Int → Configuration → Closure → Prediction σ τ Closure}

/-- What a closure does: it adds threads to the set. -/
def Closes (Mild : Failure → Prop) (Inv : Simulation σ τ → Prop) (At : Nat → Nat → Prop)
    (Among : ConfigurationSet → Prop)
    (onward : Bool → Int → Configuration → Closure → Prediction σ τ Closure) : Prop :=
  ∀ collect depth c (acc : Closure), At c.alt c.state → Among acc.configs →
    Observes Mild Inv (onward collect depth c acc) (Among ·.configs)

variable (carries : Carries q Mild Inv At Among)

include carries

/-- Crossing a guard keeps the alternative. -/
theorem crossGuard_carries (full collect : Bool) (c : Configuration) (target : Nat) (g : Guard) :
    Observes Mild Inv (crossGuard q full collect c target g)
      fun moved => ∀ c' ∈ moved, c'.alt = c.alt ∧ c'.state = target := by
  unfold crossGuard
  extract_lets moved
  have arrives : ∀ c' ∈ some moved, c'.alt = c.alt ∧ c'.state = target :=
    fun c' mem => Option.some.inj mem ▸ ⟨rfl, rfl⟩
  refine .ite (fun _ => .pure arrives) fun _ => .ite (fun _ => ?_) fun _ => .pure fun c' mem => ?_
  · refine .bind index_keeps fun here _ => carries.judges here g fun answer => .pure ?_
    cases answer with
    | true => exact arrives
    | false => exact fun c' mem => by simp at mem
  · exact Option.some.inj mem ▸ ⟨rfl, rfl⟩

/-- A thread crosses an edge to the place where the edge leads. -/
theorem cross_carries (mode : ClosureMode) (collect inRule : Bool) (thread : At c.alt c.state)
    (here : q.grammar.network.states[c.state]? = some s) (mem : t ∈ s.transitions) :
    Observes Mild Inv (cross q mode collect inRule c t)
      fun moved => ∀ c' ∈ moved, At c'.alt c'.state := by
  have target : At c.alt t.target := carries.edge thread here mem
  have goesOn {c' : Configuration} (same : c'.alt = c.alt ∧ c'.state = t.target) :
      At c'.alt c'.state := by
    rwa [same.1, same.2]
  have arrives {c' : Configuration} (same : c'.alt = c.alt ∧ c'.state = t.target) :
      ∀ c'' ∈ some c', At c''.alt c''.state :=
    fun c'' mem => Option.some.inj mem ▸ goesOn same
  cases t with
  | call target rule precedence follow =>
      exact .bind (carries.pushes here mem) fun _ _ => .pure (arrives ⟨rfl, rfl⟩)
  | precedence | predicate =>
      refine (crossGuard_carries carries _ _ _ _ _).imp fun moved same c' mem => ?_
      exact goesOn (same c' mem)
  | action => exact .pure (arrives ⟨rfl, rfl⟩)
  | epsilon => exact .pure (arrives ⟨rfl, rfl⟩)
  | atom | range | set =>
      refine .pure ?_
      split
      · exact arrives ⟨rfl, rfl⟩
      · simp
  | notSet => exact .pure (by simp)
  | wildcard => exact .pure (by simp)

theorem followEdge_carries (closes : Closes Mild Inv At Among onward) (mode : ClosureMode)
    (rule : Nat) (collect : Bool) (depth : Int) (thread : At c.alt c.state)
    (here : q.grammar.network.states[c.state]? = some s) (mem : t ∈ s.transitions)
    (h : Among acc.configs) :
    Observes Mild Inv (followEdge q mode rule onward collect depth c s acc t)
      (Among ·.configs) := by
  unfold followEdge
  refine .bind (cross_carries carries _ _ _ thread here mem) fun moved arrives => ?_
  cases moved with
  | none => exact .pure h
  | some target =>
      have thread : At target.alt target.state := arrives target rfl
      refine .ite (fun _ => ?_) fun _ => ?_
      · exact .ite (fun _ => .pure h) fun _ => closes _ _ _ _ thread (carries.dips h)
      · refine .ite (fun _ => closes _ _ _ _ thread h) fun _ => ?_
        exact .ite (fun _ => .pure h) fun _ => closes _ _ _ _ thread h

theorem expand_carries (closes : Closes Mild Inv At Among onward) (mode : ClosureMode)
    (collect : Bool) (depth : Int) (thread : At c.alt c.state) (h : Among acc.configs) :
    Observes Mild Inv (expand q mode onward collect depth c acc) (Among ·.configs) := by
  refine .bind (.ofQuestion (carries.known thread) fun s => Lookahead.state_eq_ok.1) fun s here => ?_
  extract_lets follow
  have follows (acc : Closure) (h : Among acc.configs) : Observes Mild Inv (follow acc)
      fun acc : Closure => Among acc.configs := by
    refine .bind (.asks carries.decision) fun rule _ => ?_
    exact .foldlM h fun acc h t mem => followEdge_carries carries closes _ _ _ _ thread here mem h
  refine .ite (fun _ => .bind (.pure h) follows) fun _ => ?_
  exact .bind (carries.adds h thread) fun _ h => .bind (.pure h) follows

/-- A closure holds threads at such places, and no others. -/
theorem close_carries (mode : ClosureMode) (fuel : Nat) :
    Closes Mild Inv At Among (close q mode fuel) := by
  induction fuel with
  | zero => exact fun _ _ _ _ _ _ => .throw carries.exhausted
  | succ fuel ih =>
      intro collect depth c acc thread h
      rw [Prediction.close]
      refine .bind (.asks (carries.known thread)) fun s _ => ?_
      have expands {acc : Closure} (h : Among acc.configs) :=
        expand_carries carries ih mode collect depth thread h
      refine .ite (fun _ => expands h) fun _ => .ite (fun _ => ?_) fun _ => ?_
      · refine .ite (fun _ => ?_) fun _ => expands h
        exact .bind (carries.adds h thread) fun _ h => .pure h
      · refine .bind .get fun sim inv => .foldlM h fun acc h entry mem => ?_
        refine .ite (fun _ => .ite (fun _ => ?_) fun _ => expands h) fun isState => ?_
        · exact .bind (carries.adds h thread) fun _ h => .pure h
        · exact ih _ _ _ _ (carries.back thread inv mem isState) h

/-- The threads of a start are behind the edges of the decision. -/
theorem startConfigs_carries (fullContext : Bool) (stack : Nat)
    (starts : ∀ s, q.grammar.network.states[q.decisionState]? = some s →
      ∀ i t, s.transitions[i]? = some t → At (i + 1) t.target) :
    Observes Mild Inv (startConfigs q fullContext stack) Among := by
  refine .bind (.ofQuestion carries.decision fun s => Lookahead.state_eq_ok.1) fun s here => ?_
  refine .foldlM (carries.empty fullContext) fun configs h (t, i) mem => ?_
  have thread := starts s here i t (List.mem_zipIdx_iff_getElem?.1 mem)
  exact .bind (close_carries carries _ _ _ _ _ _ thread h) fun _ h => .pure h

theorem foldlM_addTo_carries (h : Among set) {threads : List Configuration}
    (all : ∀ c ∈ threads, At c.alt c.state) : Observes Mild Inv (threads.foldlM addTo set) Among :=
  .foldlM h fun _ h c mem => carries.adds h (all c mem)

/-- Threads read a symbol or have finished. -/
theorem moved_carries (h : Among set) (symbol : Symbol) (fullContext : Bool) :
    Observes Mild Inv (moved q set symbol fullContext)
      fun (moved, finished) => Among moved ∧ ∀ c ∈ finished, At c.alt c.state := by
  refine .foldlM ⟨carries.empty fullContext, by simp⟩ fun (moved, finished) ⟨hm, hf⟩ c mem => ?_
  have thread := carries.threads h c mem
  refine .bind (.ofQuestion (carries.known thread) fun s => Lookahead.state_eq_ok.1) fun s here => ?_
  refine .ite (fun _ => .ite (fun _ => .pure ⟨hm, ?_⟩) fun _ => .pure ⟨hm, hf⟩) fun _ => ?_
  · exact List.forall_mem_append.2 ⟨hf, List.forall_mem_singleton.2 thread⟩
  · refine .bind (.foldlM (R := Among) hm fun moved hm t mem => ?_) fun _ hm => .pure ⟨hm, hf⟩
    refine .ite (fun _ => ?_) fun _ => .pure hm
    exact carries.adds hm (carries.edge thread here mem)

omit carries in
/-- Who asks whether threads have finished their rules asks for their states. -/
theorem inRuleStop_error {n : Network} {f : Fault}
    (h : set.allInRuleStop n = .error f ∨ set.anyInRuleStop n = .error f) :
    ∃ c ∈ set.toList, n.state c.state = .error f := by
  unfold ConfigurationSet.allInRuleStop ConfigurationSet.anyInRuleStop at h
  generalize set.toList = threads at h
  induction threads with
  | nil => simp [List.allM, List.anyM, pure, Except.pure] at h
  | cons c rest ih =>
      rw [List.allM, List.anyM] at h
      cases found : n.state c.state with
      | error f' =>
          rw [found] at h
          have same : f' = f := h.elim Except.error.inj Except.error.inj
          exact ⟨c, .head _, same ▸ found⟩
      | ok s =>
          rw [found] at h
          have later : rest.allM (fun c => do return (← n.state c.state).isRuleStop) = .error f ∨
              rest.anyM (fun c => do return (← n.state c.state).isRuleStop) = .error f := by
            cases stop : s.isRuleStop <;> simp_all [bind, Except.bind, pure, Except.pure]
          obtain ⟨c', mem, error⟩ := ih later
          exact ⟨c', .tail _ mem, error⟩

theorem finishedOnly_carries (h : Among set) (unclosed : Bool) :
    Observes Mild Inv (finishedOnly q set unclosed) Among := by
  refine .bind (.asks fun f error => ?_) fun all _ => ?_
  · obtain ⟨c, mem, error⟩ := inRuleStop_error (.inl error)
    exact carries.known (carries.threads h c mem) f error
  refine .ite (fun _ => .pure h) fun _ => ?_
  refine .foldlM (carries.empty _) fun result hr c mem => ?_
  have thread := carries.threads h c mem
  refine .bind (.asks (carries.known thread)) fun s _ => ?_
  refine .ite (fun _ => carries.adds hr thread) fun _ => .ite (fun _ => ?_) fun _ => .pure hr
  refine .bind (.asks (carries.following thread)) fun following _ => ?_
  split
  case h_1 stop _ _ stops _ => exact carries.adds hr (carries.finish thread stops)
  case h_2 => exact .pure hr

/-- Reading a symbol leads to a set of threads at such places, if it leads to any. -/
theorem reach_carries (h : Among set) (symbol : Symbol) (fullContext : Bool) :
    Observes Mild Inv (reach q set symbol fullContext)
      fun reached => ∀ configs ∈ reached, Among configs ∧ configs.isEmpty = false := by
  refine .bind (moved_carries carries h symbol fullContext) fun (moved, finished) ⟨hm, hf⟩ => ?_
  dsimp -zeta only
  extract_lets settled answer finish complete
  have answers (reached : ConfigurationSet) (hr : Among reached) :
      Observes Mild Inv (answer reached) fun reached => ∀ configs ∈ reached,
        Among configs ∧ configs.isEmpty = false := by
    refine .pure fun configs mem => ?_
    split at mem
    case isTrue => simp at mem
    case isFalse some =>
        obtain rfl := Option.some.inj mem
        exact ⟨hr, Bool.eq_false_iff.2 some⟩
  have finishes (reached : ConfigurationSet) (hr : Among reached) :
      Observes Mild Inv (finish reached) fun reached => ∀ configs ∈ reached,
        Among configs ∧ configs.isEmpty = false := by
    refine .bind (.asks fun f error => ?_) fun ended _ => ?_
    · obtain ⟨c, mem, error⟩ := inRuleStop_error (.inr error)
      exact carries.known (carries.threads hr c mem) f error
    refine .ite (fun _ => .bind (.pure hr) answers) fun _ => ?_
    exact .bind (foldlM_addTo_carries carries hr hf) answers
  have completes (reached : ConfigurationSet) (hr : Among reached) :
      Observes Mild Inv (complete reached) fun reached => ∀ configs ∈ reached,
        Among configs ∧ configs.isEmpty = false :=
    .ite (fun _ => .bind (finishedOnly_carries carries hr _) finishes) fun _ =>
      .bind (.pure hr) finishes
  refine .ite (fun _ => .bind (.pure hm) completes) fun _ => .bind ?_ fun closure hc =>
    .bind (.pure hc) completes
  exact .foldlM (R := fun acc : Closure => Among acc.configs) (carries.empty _)
    fun acc ha c mem => close_carries carries _ _ _ _ _ _ (carries.threads hm c mem) ha

omit carries [TokenSource σ] in
/-- Operator threads are threads of the set but for their guards. -/
theorem operatorThreads_keeps (set : ConfigurationSet) :
    Observes Mild Inv (operatorThreads q set) fun threads =>
      ∀ c ∈ threads, ∃ c' ∈ set.toList, ∃ guard, c = { c' with guard } := by
  refine .bind (.mapM (R := fun found : Option Configuration =>
    ∀ c ∈ found, ∃ c' ∈ set.toList, ∃ guard, c = { c' with guard })
    fun c mem => ?_) fun threads all => .pure fun c mem => ?_
  · refine .bind (evalPrecedence_keeps _ _) fun remaining _ => .pure fun c' found => ?_
    obtain ⟨g, -, rfl⟩ := Option.map_eq_some_iff.1 found
    exact ⟨c, List.mem_of_mem_filter mem, g, rfl⟩
  · obtain ⟨found, mem, eq⟩ := List.mem_filterMap.1 mem
    exact all found mem c eq

/-- The filter takes threads away or exchanges their guards. -/
theorem filterByPrecedence_carries (h : Among set) :
    Observes Mild Inv (filterByPrecedence q set) Among := by
  refine .bind (operatorThreads_keeps set) fun operators all =>
    foldlM_addTo_carries carries (carries.empty _) ?_
  intro c mem
  rcases List.mem_append.1 mem with mem | mem
  · obtain ⟨c', inside, guard, rfl⟩ := all c mem
    exact carries.threads h c' inside
  · exact carries.threads h c (List.mem_of_mem_filter mem)

end Carried

section Threads

variable {P : Nat → Nat → Prop} {s₀ : Simulation σ τ} {q : Problem τ} {Q : Nat → Prop}
  {set : ConfigurationSet}

/-- Wherever threads go, they keep their alternatives. -/
theorem follows_carries : Carries q (fun e => ¬ e.IsFatal) (s₀.Follows q P) (fun alt _ => Q alt)
    (·.Within Q) where
  exhausted := id
  decision _ _ := id
  known _ _ _ := id
  following _ _ _ := id
  edge chosen _ _ := chosen
  back chosen _ _ _ := chosen
  finish chosen _ := chosen
  empty := .empty Q
  threads h := h.threads
  dips h := ⟨h.threads, h.unique, h.conflicting⟩
  adds := addTo_keeps
  pushes _ _ := pushFrame_keeps _ _
  judges here g rest := return_keeps (holds_keeps g) fun answer _ =>
    .bind (seek_keeps here) fun _ _ => rest answer

/-- The alternatives of the decision are those of its edges. -/
def Offers (q : Problem τ) (Q : Nat → Prop) : Prop :=
  ∀ s, q.grammar.network.states[q.decisionState]? = some s →
    ∀ a, 1 ≤ a → a ≤ s.transitions.length → Q a

/-- The threads of a start are for the edges of the decision. -/
theorem startConfigs_keeps (offers : Offers q Q) (fullContext : Bool) (stack : Nat) :
    Keeps (s₀.Follows q P) (startConfigs q fullContext stack) (·.Within Q) :=
  startConfigs_carries follows_carries fullContext stack fun s here _ _ edge =>
    offers s here _ (Nat.le_add_left _ _) (List.getElem?_eq_some_iff.1 edge).1

/-- Reading a symbol leads to a set of threads with the same alternatives, if it leads to any. -/
theorem reach_keeps (h : set.Within Q) (symbol : Symbol) (fullContext : Bool) :
    Keeps (s₀.Follows q P) (reach q set symbol fullContext)
      fun reached => ∀ configs ∈ reached, configs.Within Q ∧ configs.isEmpty = false :=
  reach_carries follows_carries h symbol fullContext

/-- Guards leave some of the alternatives that they stand for. -/
theorem viable_keeps {guards : List (Guard × Nat)} (all : ∀ g ∈ guards, Q g.2) :
    Keeps (s₀.Returns q P) (viable q guards) fun alts => ∀ a ∈ alts, Q a := by
  refine .foldlM (by simp) fun alts h (g, alt) mem => ?_
  refine .bind (admits_keeps g) fun holds _ => .pure fun a listed => ?_
  cases holds with
  | false => exact h a listed
  | true =>
      rcases AltSet.mem_insert.1 listed with rfl | listed
      · exact all _ mem
      · exact h a listed

/-- What is fallen back on is an alternative of one of the threads. -/
theorem fallback_keeps (h : set.Within Q) :
    Keeps (s₀.Returns q P) (fallback q set) fun alt => alt ≠ noAlt → Q alt := by
  refine .bind (.mapM (R := fun judged : Configuration × Bool => Q judged.1.alt)
    fun c mem => .bind (admits_keeps _) fun _ _ => .pure (h.threads c mem)) fun judged all => ?_
  refine .bind .get fun _ _ => .pure fun found => ?_
  have picked (valid : Bool) : ∀ c ∈ (judged.filter (·.2 == valid)).map Prod.fst, Q c.alt := by
    intro c mem
    obtain ⟨j, listed, rfl⟩ := List.mem_map.1 mem
    exact all j (List.mem_of_mem_filter listed)
  split at found
  case isTrue first =>
      rw [if_pos first]
      exact finishedAlt_of_ne (picked true) found
  case isFalse first =>
      rw [if_neg first]
      exact finishedAlt_of_ne (picked false) found

end Threads

/-- Completing a state changes what it predicts only. -/
theorem concluded_eq (q : Problem τ) (d : TableState) :
    ∃ guards prediction, concluded q d = { d with guards, prediction } := by
  unfold concluded withGuards
  split
  · dsimp only
    split <;> exact ⟨_, _, rfl⟩
  · exact ⟨d.guards, d.prediction, rfl⟩

@[simp] theorem configs_concluded (q : Problem τ) (d : TableState) :
    (concluded q d).configs = d.configs := by
  obtain ⟨guards, prediction, eq⟩ := concluded_eq q d
  rw [eq]

@[simp] theorem isAccept_concluded (q : Problem τ) (d : TableState) :
    (concluded q d).isAccept = d.isAccept := by
  obtain ⟨guards, prediction, eq⟩ := concluded_eq q d
  rw [eq]

section Tables

variable {P : Nat → Nat → Prop} {s₀ : Simulation σ τ} {q : Problem τ} {d : TableState}
  {configs : ConfigurationSet}

/-- What is done to the table of the decision, if it leaves the start state of the network alone.
-/
theorem onTable_keeps {α : Type} [Inhabited α] {R : α → Prop}
    {f : PredictionTable → α × PredictionTable}
    (known : s₀.tables.starts[q.decision]? = some q.decisionState)
    (h : ∀ table, table.startState = q.decisionState → table.Within P →
      (f table).2.Within P ∧ (f table).2.startState = table.startState ∧ R (f table).1) :
    Keeps (s₀.Follows q P) (onTable q f) R := by
  refine .bind .get fun s inv => ?_
  have starts : (s.tables.tables[q.decision]?).map PredictionTable.startState =
      some q.decisionState := by
    rw [← Array.getElem?_map]
    exact (congrArg (·[q.decision]?) inv.starts).trans known
  obtain ⟨table, here, start⟩ := Option.map_eq_some_iff.1 starts
  obtain ⟨within, same, answer⟩ := h table start (inv.within table (Array.mem_of_getElem? here))
  simp only [here]
  refine .bind (.set { inv with starts := ?_, within := ?_ }) fun _ _ => .pure answer
  · rw [← inv.starts, Tables.starts, Tables.starts, Tables.modifyTable]
    refine Array.ext_getElem? fun i => ?_
    simp only [Array.getElem?_map, Array.getElem?_modify]
    split
    case isTrue eq =>
        subst eq
        rw [here]
        exact congrArg some same
    case isFalse => rfl
  · intro table' mem
    obtain ⟨i, get⟩ := Array.mem_iff_getElem?.1 mem
    simp only [Tables.modifyTable, Array.getElem?_modify] at get
    split at get
    case isTrue eq =>
        obtain ⟨_, -, rfl⟩ := Option.map_eq_some_iff.1 get
        exact within
    case isFalse => exact inv.within table' (Array.mem_of_getElem? get)

variable (known : s₀.tables.starts[q.decision]? = some q.decisionState)

include known

theorem addState_keeps (h : d.Within (P q.decisionState)) :
    Keeps (s₀.Follows q P) (addState q d) (·.Within (P q.decisionState)) := by
  refine onTable_keeps known fun table start within => ?_
  rw [← start] at h ⊢
  obtain ⟨within, answer⟩ := within.addState h
  exact ⟨within, table.startState_addState, answer⟩

theorem addEdge_keeps (source : TableState) (symbol : Symbol) (target : TableTarget) :
    Keeps (s₀.Follows q P) (addEdge q source symbol target) fun _ => True := by
  refine onTable_keeps known fun table _ within => ?_
  have same := table.addEdge_states source symbol target
  exact ⟨within.of_states same, same.2, trivial⟩

omit known in
theorem count_keeps (f : DecisionStats → DecisionStats) :
    Keeps (s₀.Follows q P) (count q f) fun _ => True :=
  .modify fun _ inv => inv.of_eq rfl rfl rfl

omit known in
theorem report_keeps (event : PredictionEvent) (stop : Nat) (configs : ConfigurationSet) :
    Keeps (s₀.Follows q P) (report q event stop configs) fun _ => True := by
  refine .bind (onInput_keeps (fun input => (input.textRange_passes _ _).toLeads)
    (TokenStream.marks_textRange _ _)) fun _ _ => ?_
  refine .bind (.asks fun _ _ => id) fun _ _ => ?_
  exact .modify fun _ inv => inv.of_eq rfl rfl rfl

omit known in
theorem reportAmbiguity_keeps (exact : Bool) (alts : AltSet) (stop : Nat)
    (configs : ConfigurationSet) :
    Keeps (s₀.Follows q P) (reportAmbiguity q exact alts stop configs) fun _ => True :=
  .bind (count_keeps _) fun _ _ => report_keeps _ _ _

omit known in
theorem noViableAlt_keeps (configs : ConfigurationSet) :
    Keeps (s₀.Follows q P) (noViableAlt q configs) fun _ => True := by
  refine .bind .get fun _ _ => ?_
  refine .bind (onInput_keeps (fun input => (input.lookahead?_passes 1).toLeads)
    (TokenStream.marks_lookahead? 1)) fun _ _ => ?_
  exact .pure trivial

omit known in
theorem deadEnd_keeps {Q : Nat → Prop} (h : configs.Within Q) :
    Keeps (s₀.Follows q P) (deadEnd q configs) Q := by
  refine .bind (noViableAlt_keeps configs) fun _ _ => return_keeps (fallback_keeps h) ?_
  exact fun alt found => .ite (fun some => .pure (found some)) fun _ => .throw id

omit known in
/-- What is concluded about a state names alternatives of its threads alone. -/
theorem concluded_within {Q : Nat → Prop} (offers : Offers q Q) (h : d.configs.Within Q)
    (unguarded : d.guards = none) (predicts : d.isAccept = true → Q d.prediction)
    (some : d.isAccept = true → d.configs.uniqueAlt = noAlt →
      ∃ alts ∈ d.configs.conflicting, alts ≠ []) : (concluded q d).Within Q := by
  unfold concluded
  extract_lets transitions
  split
  case isTrue accepts =>
      have accepts := (Bool.and_eq_true_iff.1 accepts).1
      refine withGuards_within (fun a low high => ?_) h unguarded (some accepts)
      cases here : q.grammar.network.states[q.decisionState]? with
      | none => simp [transitions, here] at high; omega
      | some s => exact offers s here a low (by simpa [transitions, here] using high)
  case isFalse => exact ⟨h, by simp [unguarded], fun accepts _ => predicts accepts⟩

omit known in
/-- A set that decides has an alternative among those that the decision offers. -/
theorem settle_keeps {Q : Nat → Prop} (offers : Offers q Q) (h : configs.Within Q)
    (some : configs.isEmpty = false) :
    Keeps (s₀.Follows q P) (settle q configs) fun d => (concluded q d).Within Q := by
  unfold settle
  refine .ite (fun agree => .pure ?_) fun _ => .bind .get fun s inv => ?_
  · have agreed : Q configs.agreedAlt := h.agreed agree
    refine concluded_within offers ⟨h.threads, fun _ => agreed, h.conflicting⟩ rfl
      (fun _ => agreed) fun _ none => absurd none agree
  refine .bind (.asks fun _ _ => id) fun (stop, graph) _ => ?_
  refine .bind (.set (inv.of_eq rfl rfl rfl)) fun _ _ => .ite (fun _ => .pure ?_) fun _ => .pure ?_
  · obtain ⟨nonempty, all⟩ := ConfigurationSet.altSubsets_spec h some
    obtain ⟨nonempty, all⟩ := Conflict.alts_spec nonempty all
    obtain ⟨a, rest, eq⟩ := List.exists_cons_of_ne_nil nonempty
    refine concluded_within offers ⟨h.threads, h.unique, ?_⟩ rfl (fun _ => ?_) fun _ _ => ?_
    · exact fun alts mem => Option.some.inj mem ▸ all
    · have first : (Conflict.alts configs.altSubsets).head?.getD noAlt = a := by rw [eq]; rfl
      exact first ▸ all a (eq ▸ List.mem_cons_self)
    · exact ⟨_, rfl, nonempty⟩
  · exact concluded_within offers h rfl (fun accepts => absurd accepts (by simp))
      fun accepts => absurd accepts (by simp)

variable (offers : Offers q (P q.decisionState))

include offers

/-- A new target holds alternatives that the source holds. -/
theorem computeTarget_keeps (h : d.Within (P q.decisionState)) (symbol : Symbol) :
    Keeps (s₀.Follows q P) (computeTarget q d symbol) fun target =>
      ∀ d', target = .state d' → d'.Within (P q.decisionState) := by
  refine .bind (reach_keeps h.configs symbol false) fun reached all => ?_
  cases reached with
  | none => exact .bind (addEdge_keeps known _ _ _) fun _ _ => .pure (by simp)
  | some configs =>
      obtain ⟨within, some⟩ := all configs rfl
      refine .bind (settle_keeps offers within some) fun _ settled => ?_
      refine .bind (addState_keeps known settled) fun d' within => ?_
      refine .bind (addEdge_keeps known _ _ _) fun _ _ => .pure fun d'' eq => ?_
      exact (TableTarget.state.inj eq) ▸ within

/-- A target that was stored is as good as a new one. -/
theorem target_keeps (h : d.Within (P q.decisionState)) (symbol : Symbol) :
    Keeps (s₀.Follows q P) (target q d symbol) fun target =>
      ∀ d', target = .state d' → d'.Within (P q.decisionState) := by
  refine .bind (onTable_keeps known
    (R := fun target : Option TableTarget => ∀ d', target = some (.state d') →
      d'.Within (P q.decisionState))
    fun table start within => ⟨within, rfl, fun d' found => ?_⟩) fun found all => ?_
  · exact start ▸ within.edge found
  · cases found with
    | some target => exact .pure fun d' eq => all d' (congrArg some eq)
    | none => exact computeTarget_keeps known offers h symbol

theorem startState_keeps :
    Keeps (s₀.Follows q P) (startState q) (·.Within (P q.decisionState)) := by
  refine .bind (onTable_keeps known
    (R := fun found : Option TableState => ∀ d ∈ found, d.Within (P q.decisionState))
    fun table start within => ⟨within, rfl, fun d found => ?_⟩) fun found all => ?_
  · simp only at found
    split at found
    · exact start ▸ within.precedenceStart found
    · exact start ▸ within.start found
  · cases found with
    | some d => exact .pure (all d rfl)
    | none =>
        have starts (configs : ConfigurationSet) (h : configs.Within (P q.decisionState)) :
            Keeps (s₀.Follows q P) (addState q { configs }) (·.Within (P q.decisionState)) :=
          addState_keeps known ⟨h, by simp, by simp⟩
        refine .bind (startConfigs_keeps offers false 0) fun configs h => .ite (fun _ => ?_) fun _ => ?_
        · refine .bind (filterByPrecedence_carries follows_carries h) fun configs h => ?_
          refine .bind (starts configs h) fun d h => ?_
          refine .bind (onTable_keeps (R := fun _ => True) known fun table _ within => ?_)
            fun _ _ => .pure h
          have same := table.setPrecedenceStart_states q.situation.precedence d
          exact ⟨within.of_states same, same.2, trivial⟩
        · refine .bind (starts configs h) fun d h => ?_
          refine .bind (onTable_keeps (R := fun _ => True) known fun table _ within => ?_)
            fun _ _ => .pure h
          have same := table.setStart_states d
          exact ⟨within.of_states same, same.2, trivial⟩

omit known offers in
/-- The stage with the full context answers with an alternative of its first threads. -/
theorem predictFully_keeps {Q : Nat → Prop} (fuel : Nat) {configs : ConfigurationSet}
    (symbol : Symbol) (h : configs.Within Q) :
    Keeps (s₀.Follows q P) (predictFully q fuel configs symbol) Q := by
  induction fuel generalizing configs symbol with
  | zero => exact .throw id
  | succ fuel ih =>
      refine .bind (count_keeps _) fun _ _ => .bind (reach_keeps h symbol true) fun reached all => ?_
      cases reached with
      | none => exact deadEnd_keeps h
      | some configs =>
          obtain ⟨h, some⟩ := all configs rfl
          obtain ⟨nonempty, subsets⟩ := ConfigurationSet.altSubsets_spec h some
          refine .ite (fun agree => ?_) fun _ => .ite (fun stops => ?_) fun _ => ?_
          · refine .bind (count_keeps _) fun _ _ => .bind index_keeps fun _ _ => ?_
            exact .bind (report_keeps _ _ _) fun _ _ => .pure (h.agreed agree)
          · refine .bind index_keeps fun _ _ => .bind (reportAmbiguity_keeps _ _ _ _) fun _ _ => ?_
            refine .pure ?_
            simp only [Bool.or_eq_true, Bool.and_eq_true, decide_eq_true_eq] at stops
            rcases stops with ⟨-, equal⟩ | ⟨-, viable⟩
            · exact Conflict.viableAlt_of_allEqual nonempty subsets equal
            · exact Conflict.viableAlt_of_ne (fun alts mem => (subsets alts mem).2) viable
          · exact .bind (advance_keeps symbol) fun _ _ =>
              ih _ ⟨h.threads, fun agree => h.agreed agree, h.conflicting⟩

omit known in
/-- A conflict is resolved among the alternatives of the decision. -/
theorem resolve_keeps (h : d.Within (P q.decisionState)) :
    Keeps (s₀.Follows q P) (resolve q d) (P q.decisionState) := by
  unfold resolve
  refine .bind index_keeps fun here _ => ?_
  extract_lets resolved
  have resolves (conflicting : Option AltSet)
      (all : ∀ guards, d.guards = some guards → ∀ alts ∈ conflicting, ∀ a ∈ alts,
        P q.decisionState a) :
      Keeps (s₀.Follows q P) (resolved conflicting) (P q.decisionState) := by
    simp only [resolved]
    split
    · rename_i guards alt eq
      exact .pure (all _ eq [alt] rfl alt (.head _))
    · refine .bind (seek_keeps _) fun _ _ => .bind (count_keeps _) fun _ _ => ?_
      refine .bind .get fun s inv => .bind (.set (inv.of_eq rfl rfl rfl)) fun _ _ => ?_
      refine .bind (startConfigs_keeps offers true _) fun configs h => ?_
      refine .bind (report_keeps _ _ _) fun _ _ => .bind (seek_keeps _) fun _ _ => ?_
      exact .bind current_keeps fun _ _ => predictFully_keeps _ _ h
  cases guards : d.guards with
  | none => exact .bind (.pure trivial (R := fun _ => True)) fun _ _ =>
      resolves _ (by simp [guards])
  | some gs =>
      refine return_keeps (viable_keeps (h.guarded gs guards)) fun alts all => ?_
      refine .bind (.pure (R := fun found => found = some alts) rfl) fun found eq => ?_
      exact resolves _ fun _ _ alts' mem => by
        rw [eq] at mem
        exact Option.some.inj mem ▸ all

omit known offers in
/-- An accepting state answers with one of its alternatives. -/
theorem accept_keeps {Q : Nat → Prop} (h : d.Within Q) (accepts : d.isAccept = true) :
    Keeps (s₀.Follows q P) (accept q d) Q := by
  unfold accept
  split
  case h_1 none => exact .pure (h.predicts accepts none)
  case h_2 guards eq =>
      refine .bind index_keeps fun _ _ => ?_
      refine return_keeps (viable_keeps (h.guarded guards eq)) fun alts all => ?_
      match alts with
      | [] => exact .bind (noViableAlt_keeps _) fun _ _ => .throw id
      | [alt] => exact .pure (all alt (.head _))
      | alt :: _ :: _ =>
          exact .bind (reportAmbiguity_keeps _ _ _ _) fun _ _ => .pure (all alt (.head _))

/-- The stage without context answers with an alternative of the decision. -/
theorem predictLocally_keeps (fuel : Nat) {d : TableState} (symbol : Symbol)
    (h : d.Within (P q.decisionState)) :
    Keeps (s₀.Follows q P) (predictLocally q fuel d symbol) (P q.decisionState) := by
  induction fuel generalizing d symbol with
  | zero => exact .throw id
  | succ fuel ih =>
      refine .bind (count_keeps _) fun _ _ => ?_
      refine .bind (target_keeps known offers h symbol) fun target all => ?_
      cases target with
      | dead => exact deadEnd_keeps h.configs
      | state d' =>
          have h := all d' rfl
          refine .ite (fun _ => resolve_keeps offers h) fun _ => .ite (fun accepts => ?_) fun _ => ?_
          · exact accept_keeps h accepts
          · exact .bind (advance_keeps symbol) fun _ _ => ih _ h

theorem predict_keeps : Keeps (s₀.Follows q P) (predict q) (P q.decisionState) :=
  .bind (startState_keeps known offers) fun _ h =>
    .bind current_keeps fun _ _ => predictLocally_keeps known offers _ _ h

end Tables

/-- What a prediction leaves behind: the input where it was, and a host that has been asked
only while the cursor was there. -/
structure Predicted (P : Nat → Nat → Prop) (c : Situation τ) (s s' : Simulation σ τ) : Prop where
  input : s.input.Passes s'.input []
  position : s.input.Sound → ∀ {place}, s.input.position = some place →
    s'.input.position = some place
  marks : s'.input.marks = s.input.marks
  host : s.input.Sound → ∀ {place}, s.input.position = some place → c.Asked place s.host s'.host
  starts : s'.tables.starts = s.tables.starts
  within : s'.tables.Within P

/-- A prediction leaves the input where it was. Its answer is an alternative of the decision;
if there is none, that is because there is no such decision or for a reason in the input. -/
theorem adaptivePredict_ensures {P : Nat → Nat → Prop} {grammar : Grammar}
    (mode : PredictionMode) (fuel decision : Nat) (situation : Situation τ) {s : Simulation σ τ}
    (within : s.tables.Within P) (offers : grammar.network.Offers P) :
    Step.Ensures (adaptivePredict grammar mode fuel decision situation) s
      (fun alt s' => Predicted P situation s s' ∧
        ∃ number, s.tables.starts[decision]? = some number ∧ P number alt)
      fun e s' => Predicted P situation s s' ∧ (e.IsFatal → s.tables.starts[decision]? = none) := by
  unfold adaptivePredict
  refine .bind (.of_ok rfl ?_)
  cases here : s.tables.tables[decision]? with
  | none =>
      refine .of_error rfl ⟨⟨.refl _, fun _ _ => id, rfl, fun _ _ _ => .none _, rfl, within⟩, ?_⟩
      intro _
      rw [Tables.starts, Array.getElem?_map, here, Option.map_none]
  | some table =>
      have known : s.tables.starts[decision]? = some table.startState := by
        rw [Tables.starts, Array.getElem?_map, here, Option.map_some]
      simp only
      let q : Problem τ := {
        grammar, mode, fuel, decision, start := s.input.index, situation
        decisionState := table.startState, byPrecedence := table.byPrecedence }
      let marked := { s with input := s.input.mark, tables := s.tables.forgetMerges }
      have marks : s.input.Passes marked.input [] := s.input.passes_of_marks _
      have begun : marked.Follows q P marked := .refl within
      have follows : marked.Follows q P (marked.modifyStats decision fun i =>
          { i with invocations := i.invocations + 1 }) := begun.of_eq rfl rfl rfl
      refine .bind (.of_ok rfl (.bind (.of_ok rfl (.bind (.of_ok (Step.run_attempt _ _) ?_)))))
      have known' : marked.tables.starts[q.decision]? = some q.decisionState := known
      have predicted := predict_keeps known' (offers _) _ follows
      unfold Step.Ensures at predicted
      -- Whatever came out, the cursor goes back.
      have back {s' : Simulation σ τ} (inv : marked.Follows q P s') (stats : Array DecisionStats) :
          Predicted P situation s { s' with
            input := (s'.input.seek s.input.index).release, stats := stats } := by
        have begins (sound : s.input.Sound) {place : Nat} (here : s.input.position = some place) :
            marked.Begins q := by
          refine ⟨marks.sound sound, here.trans ?_⟩
          simp [q, TokenStream.index, here]
        have passes := TokenStream.seek_back (s := marked.input) inv.input
        refine ⟨(marks.trans passes).trans (TokenStream.passes_of_marks _ _), ?_, ?_, ?_, inv.starts,
          inv.within⟩
        · intro sound place here
          have stays := passes.stays (marks.sound sound) here
          exact congrArg some stays
        · have kept : (s'.input.seek s.input.index).marks = s.input.marks + 1 := by
            rw [TokenStream.marks_seek]
            exact inv.marks
          change (s'.input.seek s.input.index).marks - 1 = s.input.marks
          rw [kept, Nat.add_sub_cancel]
        · intro sound place here
          have asked := inv.host (begins sound here)
          rwa [show q.start = place by simp [q, TokenStream.index, here]] at asked
      split at predicted
      case h_1 s' eq =>
          rw [eq]
          exact .bind (.of_ok rfl (.bind (.of_ok rfl ⟨back predicted.1 _, _, known, predicted.2⟩)))
      case h_2 s' eq =>
          rw [eq]
          refine .bind (.of_ok rfl (.bind (.of_ok rfl ?_)))
          exact .bind (.of_ok rfl (.of_error rfl
            ⟨back predicted.1 _, fun fatal => absurd fatal predicted.2⟩))

end Prediction

end AdaptiveLL
