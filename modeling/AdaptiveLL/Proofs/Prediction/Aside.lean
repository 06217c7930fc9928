import AdaptiveLL.Proofs.Prediction.Adaptive
/-!
What is done beside the search for an alternative: the input is used, the host is asked, guards are
evaluated, reports are made. Whatever concerns only the tables and the tokens that have been counted
is kept by all of it.
-/
namespace AdaptiveLL.Prediction

open Step (Observes)

variable {σ τ : Type} [TokenSource σ] {q : Problem τ} {Inv Inv' : Simulation σ τ → Prop}
  {Mild : Failure → Prop}

/-- Whether it holds depends neither on where the input stands nor on the host, nor on what is
reported, nor on what is counted except for tokens. -/
structure Aside (Inv : Simulation σ τ → Prop) : Prop where
  input : ∀ s input, s.input.Leads input → Inv s → Inv { s with input }
  host : ∀ s host, Inv s → Inv { s with host }
  reports : ∀ s r, Inv s → Inv (s.report r)
  counts : ∀ s decision f,
    (∀ i, (f i).localLookahead = i.localLookahead ∧ (f i).fullLookahead = i.fullLookahead) →
      Inv s → Inv (s.modifyStats decision f)

namespace Aside

/-- The tables alone. -/
theorem tables (t : Tables) : Aside fun s : Simulation σ τ => s.tables = t where
  input _ _ _ same := same
  host _ _ same := same
  reports _ _ same := same
  counts _ _ _ _ same := same

theorem and (h : Aside Inv) (h' : Aside Inv') : Aside fun s => Inv s ∧ Inv' s where
  input s input leads inv := ⟨h.input s input leads inv.1, h'.input s input leads inv.2⟩
  host s host inv := ⟨h.host s host inv.1, h'.host s host inv.2⟩
  reports s r inv := ⟨h.reports s r inv.1, h'.reports s r inv.2⟩
  counts s decision f same inv := ⟨h.counts s decision f same inv.1, h'.counts s decision f same inv.2⟩

theorem ask (h : Aside Inv) (node : Option NodeId) (rule index : Nat) :
    Observes Mild Inv (ask q node rule index) fun _ => True :=
  .bind .get fun _ inv => .bind (.set (h.host _ _ inv)) fun _ _ => .pure trivial

theorem holds (h : Aside Inv) (g : Guard) : Observes Mild Inv (holds q g) fun _ => True :=
  eval_keeps h.ask _ g

theorem admits (h : Aside Inv) (g : Guard) : Observes Mild Inv (admits q g) fun _ => True :=
  .ite (fun _ => .pure trivial) fun _ => h.holds g

/-- Which alternatives are viable is asked of the host alone. -/
theorem viable (h : Aside Inv) (guards : List (Guard × Nat)) :
    Observes Mild Inv (viable q guards) fun _ => True := by
  refine .foldlM (R := fun _ => True) trivial fun alts _ g _ => ?_
  exact .bind (h.admits _) fun _ _ => .pure trivial

/-- The last resort is asked of the host alone. -/
theorem fallback (h : Aside Inv) (configs : ConfigurationSet) :
    Observes Mild Inv (fallback q configs) fun _ => True := by
  refine .bind (.mapM (R := fun _ => True) fun c _ => ?_) fun _ _ => ?_
  · exact .bind (h.admits _) fun _ _ => .pure trivial
  · exact .bind .get fun _ _ => .pure trivial

theorem count (h : Aside Inv) {f : DecisionStats → DecisionStats}
    (same : ∀ i, (f i).localLookahead = i.localLookahead ∧ (f i).fullLookahead = i.fullLookahead) :
    Observes Mild Inv (count q f) fun _ => True :=
  .modify fun s => h.counts s q.decision f same

theorem onInput {α : Type} (h : Aside Inv) {f : TokenStream σ → α × TokenStream σ}
    (leads : ∀ input : TokenStream σ, input.Leads (f input).2) :
    Observes Mild Inv (onInput f) fun _ => True :=
  .bind .get fun s inv => .bind (.set (h.input s _ (leads s.input) inv)) fun _ _ => .pure trivial

theorem current (h : Aside Inv) : Observes Mild Inv current fun _ => True :=
  h.onInput fun input => (input.lookahead_passes 1).toLeads

theorem seek (h : Aside Inv) (place : Nat) : Observes Mild Inv (seek place) fun _ => True :=
  h.onInput (TokenStream.seek_leads place)

theorem advance (h : Aside Inv) (symbol : Symbol) : Observes Mild Inv (advance symbol) fun _ => True :=
  .ite (fun _ => .pure trivial) fun _ =>
    .bind (h.onInput TokenStream.consume_leads) fun _ _ => h.current

/-- A report is made where the decision stands, at a state that has to be known. -/
theorem report (h : Aside Inv)
    (known : ∀ f, q.grammar.network.state q.decisionState = .error f → Mild (.fault f))
    (event : PredictionEvent) (stop : Nat) (configs : ConfigurationSet) :
    Observes Mild Inv (report q event stop configs) fun _ => True := by
  refine .bind (h.onInput fun input => (input.textRange_passes _ _).toLeads) fun _ _ => ?_
  refine .bind (.asks known) fun _ _ => ?_
  exact .modify fun _ => h.reports _ _

theorem reportAmbiguity (h : Aside Inv)
    (known : ∀ f, q.grammar.network.state q.decisionState = .error f → Mild (.fault f))
    (exact : Bool) (alts : AltSet) (stop : Nat) (configs : ConfigurationSet) :
    Observes Mild Inv (reportAmbiguity q exact alts stop configs) fun _ => True :=
  .bind (h.count fun _ => ⟨rfl, rfl⟩) fun _ _ => h.report known _ _ _

theorem noViableAlt (h : Aside Inv) (configs : ConfigurationSet) :
    Observes Mild Inv (noViableAlt q configs) fun _ => True :=
  .bind .get fun _ _ => .bind (h.onInput fun input => (input.lookahead?_passes 1).toLeads) fun _ _ =>
    .pure trivial

/-- Where no thread is left, only the host is asked. -/
theorem deadEnd (h : Aside Inv) (mild : ∀ e, Mild (.recoverable e)) (configs : ConfigurationSet) :
    Observes Mild Inv (deadEnd q configs) fun _ => True := by
  refine .bind (h.noViableAlt _) fun _ _ => .bind (h.seek _) fun _ _ => ?_
  exact .bind (h.fallback _) fun _ _ => .ite (fun _ => .pure trivial) fun _ => .throw (mild _)

/-- What is done once the alternative is known leaves the tables alone. -/
theorem accept (h : Aside Inv) (mild : ∀ e, Mild (.recoverable e))
    (known : ∀ f, q.grammar.network.state q.decisionState = .error f → Mild (.fault f))
    (d : TableState) : Observes Mild Inv (accept q d) fun _ => True := by
  unfold Prediction.accept
  split
  case h_1 => exact .pure trivial
  case h_2 guards _ =>
      refine .bind index_keeps fun _ _ => .bind (h.seek _) fun _ _ => .bind (h.viable _) fun alts _ => ?_
      match alts with
      | [] => exact .bind (h.noViableAlt _) fun _ _ => .throw (mild _)
      | [alt] => exact .pure trivial
      | alt :: _ :: _ => exact .bind (h.reportAmbiguity known _ _ _ _) fun _ _ => .pure trivial

end Aside

end AdaptiveLL.Prediction
