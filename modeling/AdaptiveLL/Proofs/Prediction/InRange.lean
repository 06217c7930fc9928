import AdaptiveLL.Proofs.Network.Answers
import AdaptiveLL.Proofs.Prediction.Aside
import AdaptiveLL.Proofs.Prediction.Rooted
/-!
Predictions ask for nothing that is not there. Where the numbers of a network are in order, threads
stand at states of it and return to states of it, in the sets that are at work as in those that the
tables have stored. So every question about a state has an answer, and a prediction that ends in a
fault has run out of fuel (`Prediction.adaptivePredict_finds`).
-/
namespace AdaptiveLL

namespace StackGraph

variable {size parent resume : Nat} {g : StackGraph} {es : List (Nat × Nat)}

/-- The ways on lead back to states below the bound, or to the end of the stack. -/
def Returns (size : Nat) (es : List (Nat × Nat)) : Prop :=
  ∀ e ∈ es, e.2 = noState ∨ e.2 < size

theorem Returns.cons {e : Nat × Nat} (first : e.2 = noState ∨ e.2 < size)
    (rest : Returns size es) : Returns size (e :: es) :=
  List.forall_mem_cons.2 ⟨first, rest⟩

/-- The stacks return to states below the bound. -/
def InRange (size : Nat) (g : StackGraph) : Prop :=
  ∀ id, Returns size (g.node id).entries

/-- The empty stack returns to no state. -/
theorem InRange.empty (size : Nat) : InRange size {} := by
  intro id
  cases id <;> simp [node, StackNode.entries, Returns]

/-- A new node may be put behind the others. -/
theorem InRange.intern (h : g.InRange size) {new : StackNode} (returns : Returns size new.entries) :
    (g.intern new).2.InRange size := by
  unfold StackGraph.intern
  split
  · exact h
  · split
    · exact h
    · intro id
      rw [node_push]
      split
      · exact returns
      · exact h id

/-- A state may be put on top of a stack. -/
theorem InRange.push (h : g.InRange size) (back : resume = noState ∨ resume < size) :
    (g.push parent resume).2.InRange size := by
  unfold StackGraph.push
  split
  · exact h
  · exact h.intern (List.forall_mem_singleton.2 back)

/-- The stacks of a node return to where those of its ways on return to. -/
theorem InRange.ofEntries (h : g.InRange size) (returns : Returns size es) :
    (g.ofEntries es).2.InRange size := by
  unfold StackGraph.ofEntries
  split
  · exact h
  · exact h.push (returns _ (.head _))
  · exact h.intern returns

/-- The frames of a chain of calls are there if the states behind the calls are. -/
theorem InRange.ofInvoking {n : Network} (wf : n.WellFormed) (h : g.InRange n.states.size)
    (invoking : List Nat) : (g.ofInvoking n invoking).2.InRange n.states.size := by
  have follows : ∀ follow ∈ (n.followStates invoking).reverse, follow < n.states.size :=
    fun follow mem =>
      (Network.followStates_follows n invoking follow (List.mem_reverse.1 mem)).lt wf
  refine List.foldlRecOn (motive := fun found : Nat × StackGraph =>
    found.2.InRange n.states.size) _ _ h ?_
  exact fun _ inRange follow mem => inRange.push (.inr (follows follow mem))

end StackGraph

namespace Stacks

open StackGraph (Returns)

variable {size : Nat} {as bs : List (Nat × Nat)} {s : Stacks}

/-- What a merge of parents keeps is kept by a merge of ways on. -/
theorem mergeEntries_inRange {mergeParents : Nat → Nat → Stacks → Nat × Stacks}
    (parents : ∀ a b s, s.graph.InRange size → (mergeParents a b s).2.graph.InRange size)
    (left : Returns size as) (right : Returns size bs) (h : s.graph.InRange size) :
    Returns size (mergeEntries mergeParents as bs s).1 ∧
      (mergeEntries mergeParents as bs s).2.graph.InRange size := by
  induction as, bs, s using mergeEntries.induct mergeParents with
  | case1 bs s =>
      rw [mergeEntries]
      exact ⟨right, h⟩
  | case2 as s some =>
      rw [mergeEntries.eq_2 _ _ _ some]
      exact ⟨left, h⟩
  | case3 pa as pb resume bs s parent s₁ head rest s₂ tail ih =>
      rw [dite_eq_ite] at head
      rw [mergeEntries, if_pos rfl, head]
      obtain ⟨first, left⟩ := List.forall_mem_cons.1 left
      have merged : s₁.graph.InRange size := by
        have inRange := congrArg (fun result => result.2.graph.InRange size) head
        split at inRange
        · exact inRange ▸ h
        · exact inRange ▸ parents pa pb s h
      exact (ih left (List.forall_mem_cons.1 right).2 merged).imp_left (.cons first)
  | case4 pa ra as pb rb bs s ne lt rest s₁ tail ih =>
      rw [mergeEntries, if_neg ne, if_pos lt]
      obtain ⟨first, left⟩ := List.forall_mem_cons.1 left
      exact (ih left right h).imp_left (.cons first)
  | case5 pa ra as pb rb bs s ne ge rest s₁ tail ih =>
      rw [mergeEntries, if_neg ne, if_neg ge]
      obtain ⟨first, right⟩ := List.forall_mem_cons.1 right
      exact (ih left right h).imp_left (.cons first)

/-- The empty stack beside others returns to no state. -/
theorem mergeRoot?_inRange {wildcard : Bool} {a b : Nat} {root : Nat × Stacks}
    (h : s.graph.InRange size) (rooted : s.mergeRoot? wildcard a b = some root) :
    root.2.graph.InRange size := by
  unfold mergeRoot? at rooted
  split at rooted
  · cases rooted
  · split at rooted
    · cases rooted
      exact h
    · cases rooted
      refine h.ofEntries fun e mem => ?_
      rcases List.mem_append.1 mem with mem | mem
      · exact h _ e mem
      · exact .inl (congrArg Prod.snd (List.mem_singleton.1 mem))

/-- Two frames keep their return states, whether they are merged or kept apart. -/
theorem mergeFrames_inRange {mergeParents : Nat → Nat → Stacks → Nat × Stacks} {a b : Nat}
    {ea eb : Nat × Nat}
    (parents : ∀ a b s, s.graph.InRange size → (mergeParents a b s).2.graph.InRange size)
    (left : Returns size [ea]) (right : Returns size [eb]) (h : s.graph.InRange size) :
    (mergeFrames mergeParents a b ea eb s).2.graph.InRange size := by
  obtain ⟨pa, ra⟩ := ea
  obtain ⟨pb, rb⟩ := eb
  have merged := parents pa pb s h
  simp only [mergeFrames]
  split
  · split
    · exact merged
    · split
      · exact merged
      · exact merged.push (left _ (.head _))
  · refine h.ofEntries ?_
    split
    · exact .cons (left _ (.head _)) right
    · exact .cons (right _ (.head _)) left

/-- A merge makes no return states up. -/
theorem mergeWithin_inRange (wildcard : Bool) (depth : Nat) {a b : Nat} (h : s.graph.InRange size) :
    (mergeWithin wildcard depth a b s).2.graph.InRange size := by
  induction depth generalizing a b s with
  | zero => exact h
  | succ depth ih =>
      have parents (a b : Nat) (s : Stacks) (h : s.graph.InRange size) :
          (mergeWithin wildcard depth a b s).2.graph.InRange size := ih h
      rw [mergeWithin]
      split
      · exact h
      dsimp only
      split
      · split
        · exact h
        · split
          · exact h
          · obtain ⟨returns, merged⟩ := mergeEntries_inRange parents (h a) (h b) h
            exact merged.ofEntries returns
      · split
        · exact h
        · cases rooted : s.mergeRoot? wildcard a b with
          | some root =>
              have merged := mergeRoot?_inRange h rooted
              exact merged
          | none =>
              dsimp only
              split
              case h_1 onA onB => exact mergeFrames_inRange parents (onA ▸ h a) (onB ▸ h b) h
              case h_2 => exact h

theorem merge_inRange (h : s.graph.InRange size) (wildcard : Bool) (a b : Nat) :
    (s.merge wildcard a b).2.graph.InRange size :=
  mergeWithin_inRange wildcard _ h

end Stacks

namespace ConfigurationSet

variable {size : Nat} {set : ConfigurationSet} {c : Configuration} {s : Stacks}

/-- The threads stand at states below the bound. -/
def InRange (size : Nat) (set : ConfigurationSet) : Prop :=
  ∀ c ∈ set.toList, c.state < size

theorem InRange.empty (size : Nat) (fullContext : Bool) : InRange size { fullContext } := by
  simp [InRange, toList]

/-- A thread at such a state may be put into the set. -/
theorem InRange.insert (h : set.InRange size) (thread : c.state < size) :
    (set.insert c s).1.InRange size := by
  intro c' mem
  obtain ⟨-, all⟩ | ⟨old, here, -, wildcard, -, all⟩ := insert_cases set c s
  · rcases all c' mem with old | rfl
    · exact h c' old
    · exact thread
  · rcases all c' mem with old' | rfl
    · exact h c' old'
    · exact h old here

/-- The stacks of threads in one state are merged, and nothing else is done to them. -/
theorem insert_graph_inRange (h : s.graph.InRange size) :
    (set.insert c s).2.graph.InRange size := by
  obtain ⟨same, -⟩ | ⟨old, -, -, wildcard, same, -⟩ := insert_cases set c s
  · rwa [same]
  · rw [same]
    exact Stacks.merge_inRange h _ _ _

variable {n : Network}

/-- Taking guards away leaves the threads where they are. -/
theorem stripped_inRange {g : StackGraph} (h : g.InRange size) :
    (Conflict.stripped set g).2.InRange size := by
  refine List.foldlRecOn (motive := fun found : ConfigurationSet × Stacks =>
    found.2.graph.InRange size) _ _ h fun found inRange c _ => ?_
  exact insert_graph_inRange inRange

/-- Who asks whether prediction stops asks for the states of threads. -/
theorem stops_error {mode : PredictionMode} {g : StackGraph} {f : Fault}
    (h : Conflict.stops mode n set g = .error f) :
    ∃ c ∈ set.toList, n.state c.state = .error f := by
  cases all : set.allInRuleStop n with
  | error f' =>
      rw [Conflict.stops, all] at h
      cases h
      exact Prediction.inRuleStop_error (.inl all)
  | ok ended =>
      rw [Conflict.stops, all] at h
      cases ended <;> cases h

/-- The stacks that are merged for the answer return to where they did before. -/
theorem stops_inRange {mode : PredictionMode} {g : StackGraph} {found : Bool × StackGraph}
    (h : g.InRange size) (stops : Conflict.stops mode n set g = .ok found) :
    found.2.InRange size := by
  obtain ⟨all, -, stops⟩ := Except.bind_eq_ok.1 stops
  cases all with
  | true =>
      cases stops
      exact h
  | false =>
      cases stripping : mode == .sll && set.hasGuards with
      | true =>
          rw [stripping] at stops
          cases stops
          exact stripped_inRange h
      | false =>
          rw [stripping] at stops
          cases stops
          exact h

end ConfigurationSet

/-- What the table holds is about states below the bound. -/
structure PredictionTable.InRange (size : Nat) (t : PredictionTable) : Prop where
  startState : t.startState < size
  states : t.All (·.configs.InRange size)

theorem PredictionTable.InRange.of_states {size : Nat} {t t' : PredictionTable} (h : t.InRange size)
    (same : t'.states = t.states ∧ t'.startState = t.startState) : t'.InRange size :=
  ⟨same.2 ▸ h.startState, fun d mem => h.states d (same.1 ▸ mem)⟩

/-- The stacks of the tables return to states below the bound. -/
structure Tables.InRange (size : Nat) (t : Tables) : Prop where
  graph : t.graph.InRange size
  tables : ∀ table ∈ t.tables, table.InRange size

/-- New tables hold nothing but the states where decisions start. -/
theorem Tables.InRange.ofNetwork {n : Network} (entire : n.Entire) :
    (Tables.ofNetwork n).InRange n.states.size where
  graph := .empty _
  tables := by
    intro table mem
    unfold Tables.ofNetwork at mem
    split at mem
    · obtain ⟨i, lt, rfl⟩ := Array.mem_mapIdx.1 mem
      exact ⟨entire.decision_lt _ (Array.getElem_mem lt), fun _ mem => by simp at mem⟩
    · obtain ⟨i, lt, rfl⟩ := Array.mem_mapIdx.1 mem
      exact ⟨entire.mode_lt (Array.getElem?_eq_getElem lt), fun _ mem => by simp at mem⟩

namespace Prediction

open Step (Finds)

variable {σ τ : Type} [TokenSource σ] {q : Problem τ}

/-- Who stands at a state of the network may ask about it. -/
theorem state_known {n : Network} {here : Nat} (inside : here < n.states.size) (f : Fault)
    (error : n.state here = .error f) : ¬ (Failure.fault f).IsStray :=
  absurd error (Network.state_ne_error inside f)

/-- The tables of the simulation are about states of the network. -/
def Inside (q : Problem τ) (s : Simulation σ τ) : Prop :=
  s.tables.InRange q.grammar.network.states.size

/-- What is done beside the search leaves the tables alone. -/
theorem inside_aside : Aside (Inside (σ := σ) q) where
  input _ _ _ inside := inside
  host _ _ inside := inside
  reports _ _ inside := inside
  counts _ _ _ _ inside := inside

omit [TokenSource σ] in
/-- The stacks may change if they keep returning to states. -/
theorem Inside.arena {s : Simulation σ τ} (h : Inside q s) {arena : Stacks}
    (inRange : arena.graph.InRange q.grammar.network.states.size) :
    Inside q { s with tables := { s.tables with arena } } :=
  ⟨inRange, h.tables⟩

variable (entire : q.grammar.network.Entire)
  (decision : q.decisionState < q.grammar.network.states.size)

include entire decision

/-- Wherever threads go, they come to states of the network. -/
theorem inside_carries : Carries q (fun e => ¬ e.IsStray) (Inside (σ := σ) q)
    (fun _ here => here < q.grammar.network.states.size)
    (·.InRange q.grammar.network.states.size) where
  exhausted stray := stray rfl
  decision := state_known decision
  known inside := state_known inside
  following inside f error := by
    have answers := Network.nextTokens_answers entire.toWellFormed inside
    obtain ⟨found, answer, -⟩ := entire.exists_ok answers
    cases answer.symm.trans error
  edge _ here mem := entire.target_lt here mem
  back _ inside mem isState := (inside.graph _ _ mem).resolve_left isState
  finish _ stops := by
    obtain ⟨s, here, -⟩ := entire.stop_rule stops
    exact (Array.getElem?_eq_some_iff.1 here).1
  empty := .empty _
  threads h := h
  dips h := h
  adds h thread := .bind .get fun _ inside => .bind
    (.modify fun _ inside' => inside'.arena (ConfigurationSet.insert_graph_inRange inside.graph))
    fun _ _ => .pure (h.insert thread)
  pushes here mem := .bind .get fun _ inside => .bind
    (.modify fun _ inside' => inside'.arena (inside.graph.push (.inr (entire.follow_lt here mem))))
    fun _ _ => .pure trivial
  judges here g rest := .bind (inside_aside.seek _) fun _ _ => .bind (inside_aside.holds g)
    fun answer _ => .bind (inside_aside.seek here) fun _ _ => rest answer

variable {d : TableState} {configs : ConfigurationSet}

omit entire decision [TokenSource σ] in
/-- What is done to the table of the decision. -/
theorem onTable_finds {α : Type} [Inhabited α] {R : α → Prop}
    {f : PredictionTable → α × PredictionTable} (missing : R default)
    (h : ∀ table, table.InRange q.grammar.network.states.size →
      (f table).2.InRange q.grammar.network.states.size ∧ R (f table).1) :
    Finds (Inside (σ := σ) q) (onTable q f) R := by
  refine .bind .get fun s inside => ?_
  split
  case h_1 => exact .pure missing
  case h_2 table here =>
      obtain ⟨inRange, answer⟩ := h table (inside.tables table (Array.mem_of_getElem? here))
      have all : ∀ table' ∈ s.tables.tables.modify q.decision fun _ => (f table).2,
          table'.InRange q.grammar.network.states.size := by
        intro table' mem
        rcases ConfigurationSet.mem_modify mem with old | ⟨_, -, rfl⟩
        · exact inside.tables table' old
        · exact inRange
      exact .bind (.set ⟨inside.graph, all⟩) fun _ _ => .pure answer

omit entire decision [TokenSource σ] in
/-- A state of the table holds the threads it was made for. -/
theorem addState_finds (h : d.configs.InRange q.grammar.network.states.size) :
    Finds (Inside (σ := σ) q) (addState q d) (·.configs.InRange q.grammar.network.states.size) := by
  refine onTable_finds (.empty _ _) fun table inRange => ?_
  obtain ⟨states, answer⟩ := inRange.states.addState fun _ _ => h
  exact ⟨⟨table.startState_addState ▸ inRange.startState, states⟩, answer⟩

omit entire decision [TokenSource σ] in
theorem addEdge_finds (source : TableState) (symbol : Symbol) (target : TableTarget) :
    Finds (Inside (σ := σ) q) (addEdge q source symbol target) fun _ => True := by
  refine onTable_finds trivial fun table inRange => ⟨?_, trivial⟩
  exact inRange.of_states (table.addEdge_states source symbol target)

omit entire decision [TokenSource σ] in
/-- What is settled about a set is settled about its threads. -/
theorem settle_finds (h : configs.InRange q.grammar.network.states.size) :
    Finds (Inside (σ := σ) q) (settle q configs)
      (·.configs.InRange q.grammar.network.states.size) := by
  unfold settle
  refine .ite (fun _ => .pure h) fun _ => .bind .get fun s inside => ?_
  refine .bind (.ofQuestion (R := fun found =>
    found.2.InRange q.grammar.network.states.size) ?_ ?_) fun (stop, graph) inRange => ?_
  · intro f error
    obtain ⟨c, mem, error⟩ := ConfigurationSet.stops_error error
    exact state_known (h c mem) f error
  · exact fun found stops => ConfigurationSet.stops_inRange inside.graph stops
  refine .bind (.set (inside.arena inRange)) fun _ _ => ?_
  exact .ite (fun _ => .pure h) fun _ => .pure h

/-- A new target holds threads at states of the network. -/
theorem computeTarget_finds (h : d.configs.InRange q.grammar.network.states.size)
    (symbol : Symbol) : Finds (Inside (σ := σ) q) (computeTarget q d symbol) fun target =>
      ∀ d', target = .state d' → d'.configs.InRange q.grammar.network.states.size := by
  refine .bind (reach_carries (inside_carries entire decision) h symbol false) fun reached all => ?_
  cases reached with
  | none => exact .bind (addEdge_finds _ _ _) fun _ _ => .pure (by simp)
  | some configs =>
      refine .bind (settle_finds (all configs rfl).1) fun settled within => ?_
      rw [← configs_concluded q settled] at within
      refine .bind (addState_finds within) fun d' within => ?_
      refine .bind (addEdge_finds _ _ _) fun _ _ => .pure fun d'' eq => ?_
      exact (TableTarget.state.inj eq) ▸ within

/-- A target that was stored is as good as a new one. -/
theorem target_finds (h : d.configs.InRange q.grammar.network.states.size) (symbol : Symbol) :
    Finds (Inside (σ := σ) q) (target q d symbol) fun target =>
      ∀ d', target = .state d' → d'.configs.InRange q.grammar.network.states.size := by
  refine .bind (onTable_finds (R := fun target : Option TableTarget => ∀ d',
    target = some (.state d') → d'.configs.InRange q.grammar.network.states.size) (by simp)
    fun table inRange => ⟨inRange, fun d' found => inRange.states.edge found⟩) fun found all => ?_
  cases found with
  | some target => exact .pure fun d' eq => all d' (congrArg some eq)
  | none => exact computeTarget_finds entire decision h symbol

/-- The threads of a start stand behind the edges of the decision. -/
theorem startConfigs_finds (fullContext : Bool) (stack : Nat) :
    Finds (Inside (σ := σ) q) (startConfigs q fullContext stack)
      (·.InRange q.grammar.network.states.size) :=
  startConfigs_carries (inside_carries entire decision) fullContext stack fun _ here _ _ edge =>
    entire.target_lt here (List.mem_of_getElem? edge)

/-- So do the states where predictions start. -/
theorem startState_finds : Finds (Inside (σ := σ) q) (startState q)
    (·.configs.InRange q.grammar.network.states.size) := by
  refine .bind (onTable_finds (R := fun found : Option TableState => ∀ d ∈ found,
    d.configs.InRange q.grammar.network.states.size) (by simp)
    fun table inRange => ⟨inRange, fun d found => ?_⟩) fun found all => ?_
  · simp only at found
    split at found
    · exact inRange.states.precedenceStart found
    · exact inRange.states.start found
  cases found with
  | some d => exact .pure (all d rfl)
  | none =>
      refine .bind (startConfigs_finds entire decision false 0) fun configs h => ?_
      refine .ite (fun _ => ?_) fun _ => .bind (addState_finds h) fun d h => ?_
      · have filters := filterByPrecedence_carries (inside_carries entire decision (σ := σ)) h
        refine .bind filters fun configs h => .bind (addState_finds h) fun d h => ?_
        refine .bind (onTable_finds (R := fun _ => True) trivial ?_) fun _ _ => .pure h
        exact fun table inRange =>
          ⟨inRange.of_states (table.setPrecedenceStart_states q.situation.precedence d), trivial⟩
      · refine .bind (onTable_finds (R := fun _ => True) trivial ?_) fun _ _ => .pure h
        exact fun table inRange => ⟨inRange.of_states (table.setStart_states d), trivial⟩

/-- The stage with the full context. -/
theorem predictFully_finds (fuel : Nat) (symbol : Symbol)
    (h : configs.InRange q.grammar.network.states.size) :
    Finds (Inside (σ := σ) q) (predictFully q fuel configs symbol) fun _ => True := by
  induction fuel generalizing configs symbol with
  | zero => exact .throw fun stray => stray rfl
  | succ fuel ih =>
      refine .bind (.modify fun _ inside => inside) fun _ _ => ?_
      have reaches := reach_carries (inside_carries entire decision (σ := σ)) h symbol true
      refine .bind reaches fun reached all => ?_
      cases reached with
      | none => exact inside_aside.deadEnd (fun _ => id) _
      | some configs =>
          refine .ite (fun _ => ?_) fun _ => .ite (fun _ => ?_) fun _ => ?_
          · refine .bind (inside_aside.count fun _ => ⟨rfl, rfl⟩) fun _ _ => ?_
            refine .bind index_keeps fun _ _ => ?_
            exact .bind (inside_aside.report (state_known decision) _ _ _) fun _ _ => .pure trivial
          · refine .bind index_keeps fun _ _ => ?_
            exact .bind (inside_aside.reportAmbiguity (state_known decision) _ _ _ _) fun _ _ =>
              .pure trivial
          · exact .bind (inside_aside.advance symbol) fun _ _ => ih _ (all configs rfl).1

/-- The second stage starts again with the stack of the calls that the parser is in. -/
theorem resolve_finds (d : TableState) : Finds (Inside (σ := σ) q) (resolve q d) fun _ => True := by
  unfold resolve
  refine .bind index_keeps fun here _ => ?_
  extract_lets resolved
  have resolves (conflicting : Option AltSet) :
      Finds (Inside (σ := σ) q) (resolved conflicting) fun _ => True := by
    simp only [resolved]
    split
    · exact .pure trivial
    · refine .bind (inside_aside.seek _) fun _ _ => ?_
      refine .bind (inside_aside.count fun _ => ⟨rfl, rfl⟩) fun _ _ => .bind .get fun s inside => ?_
      refine .bind (.set (inside.arena ?_)) fun _ _ => ?_
      · exact inside.graph.ofInvoking entire.toWellFormed _
      refine .bind (startConfigs_finds entire decision true _) fun configs h => ?_
      refine .bind (inside_aside.report (state_known decision) _ _ _) fun _ _ => ?_
      refine .bind (inside_aside.seek _) fun _ _ => ?_
      exact .bind inside_aside.current fun _ _ => predictFully_finds entire decision _ _ h
  cases d.guards with
  | none => exact .pure_bind (resolves _)
  | some guards =>
      refine .bind (inside_aside.seek _) fun _ _ => .bind (inside_aside.viable _) fun alts _ => ?_
      exact .pure_bind (resolves _)

/-- The stage without context. -/
theorem predictLocally_finds (fuel : Nat) (symbol : Symbol)
    (h : d.configs.InRange q.grammar.network.states.size) :
    Finds (Inside (σ := σ) q) (predictLocally q fuel d symbol) fun _ => True := by
  induction fuel generalizing d symbol with
  | zero => exact .throw fun stray => stray rfl
  | succ fuel ih =>
      refine .bind (.modify fun _ inside => inside) fun _ _ => ?_
      refine .bind (target_finds entire decision h symbol) fun target all => ?_
      cases target with
      | dead => exact inside_aside.deadEnd (fun _ => id) _
      | state d' =>
          refine .ite (fun _ => resolve_finds entire decision d') fun _ => ?_
          refine .ite (fun _ => ?_) fun _ => ?_
          · exact inside_aside.accept (fun _ => id) (state_known decision) d'
          · exact .bind (inside_aside.advance symbol) fun _ _ => ih _ (all d' rfl)

theorem predict_finds : Finds (Inside (σ := σ) q) (predict q) fun _ => True :=
  .bind (startState_finds entire decision) fun _ h =>
    .bind inside_aside.current fun _ _ => predictLocally_finds entire decision _ _ h

omit entire decision in
/-- A prediction comes to states of the network alone. If it ends in a fault, it has run out of
fuel. -/
theorem adaptivePredict_finds {grammar : Grammar} (entire : grammar.network.Entire)
    (mode : PredictionMode) (fuel decision : Nat) (situation : Situation τ) :
    Finds (fun s : Simulation σ τ => s.tables.InRange grammar.network.states.size)
      (adaptivePredict grammar mode fuel decision situation) fun _ => True := by
  refine .bind .get fun s inRange => ?_
  split
  case h_1 => exact .throw id
  case h_2 table here =>
      let q : Problem τ := {
        grammar, mode, fuel, decision, start := s.input.index, situation
        decisionState := table.startState, byPrecedence := table.byPrecedence }
      have stands : q.decisionState < q.grammar.network.states.size :=
        (inRange.tables table (Array.mem_of_getElem? here)).startState
      refine .bind (.set ⟨inRange.graph, inRange.tables⟩) fun _ _ => ?_
      refine .bind (.modify fun _ inside => inside) fun _ _ => ?_
      refine .bind_attempt (predict_finds (q := q) entire stands) fun outcome mild => ?_
      refine .bind ((inside_aside (q := q)).seek _) fun _ _ => ?_
      refine .bind (.modify fun _ inside => inside) fun _ _ => ?_
      refine .ite (fun _ => ?_) fun _ => .ofOutcome mild
      exact .bind (.modify fun _ inside => inside) fun _ _ => .ofOutcome mild

end Prediction

end AdaptiveLL
