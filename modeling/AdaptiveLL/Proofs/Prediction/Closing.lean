import AdaptiveLL.Prediction.Closure
import AdaptiveLL.Proofs.Network.Callers
import AdaptiveLL.Proofs.Prediction.Population
import AdaptiveLL.Proofs.Step.Contract
/-!
What a closure finds: where no edge asks for a guard, the places that can be reached from the thread
without reading, as far as threads stay there. Depth-first search, in which only the threads are
marked that leave a rule with unknown callers. A marked thread need not have been explored yet when
it is met again, so completeness is that of the whole search: all is found behind every mark.
-/
namespace AdaptiveLL

open Relation (ReflTransGen)
open Step (Ensures)

namespace Network

variable {n : Network} {full : Bool} {q follow : Nat} {s : State} {p : Place}

/-- The networks whose silent edges are all crossed by closures: no edge asks for a guard, and the
ends of rules have the edges back to the callers only. -/
structure Explorable (n : Network) : Prop where
  wellFormed : n.WellFormed
  small : n.states.size ≤ noState
  unguarded : n.IsPredicateFree
  stops : n.StopsReturn

theorem Leaves.isRuleStop (wf : n.WellFormed) (here : n.states[q]? = some s) (h : n.Leaves q follow) :
    s.isRuleStop = true := by
  obtain ⟨_, _, _, _, _, _, _, stop⟩ := h
  obtain ⟨s', here', isStop, -⟩ := wf.stop_rule stop
  obtain rfl := Option.some.inj (here.symm.trans here')
  exact isStop

theorem Leaves.lt (wf : n.WellFormed) (h : n.Leaves q follow) : follow < n.states.size := by
  obtain ⟨_, _, _, _, _, here, mem, -⟩ := h
  exact wf.follow_lt here mem

/-- The state of a thread that goes on is kept if it has an edge that reads, or none at all. -/
theorem Explorable.rests_iff (ex : n.Explorable) (here : n.states[p.1]? = some s)
    (outside : s.isRuleStop = true → full = false ∧ p.2 = []) :
    n.Rests full p ↔ s.isEpsilonOnly = false := by
  have bare (stop : s.isRuleStop = true) : s.isEpsilonOnly = false ↔ s.transitions = [] := by
    have silent : s.transitions.all Transition.isEpsilon = true := by
      apply List.all_eq_true.2
      intro t mem
      obtain ⟨follow, outermost, rfl, -⟩ := (ex.stops here stop).1 t mem
      rfl
    rw [State.isEpsilonOnly, silent, Bool.and_true, Bool.not_eq_false', List.isEmpty_iff]
  constructor
  · rintro ⟨s', here', stays⟩
    obtain rfl := Option.some.inj (here.symm.trans here')
    rcases stays with ⟨-, reads⟩ | ⟨stop, -, exact | none⟩
    · exact reads
    · rw [(outside stop).1] at exact
      cases exact
    · exact (bare stop).2 none
  · intro reads
    refine ⟨s, here, ?_⟩
    cases stop : s.isRuleStop with
    | false => exact .inl ⟨rfl, reads⟩
    | true => exact .inr ⟨rfl, (outside stop).2, .inr ((bare stop).1 reads)⟩

end Network

/-- The configuration is one thread of the alternative at the place, without guards and commands. -/
structure Configuration.Walks (alt : Nat) (g : StackGraph) (p : Place) (c : Configuration) : Prop where
  alt : c.alt = alt
  state : c.state = p.1
  stack : g.Holds c.stack p.2
  unguarded : c.guard = .always
  actions : c.actions = none
  patient : c.passedNonGreedy = false

namespace Configuration.Walks

variable {alt q q' : Nat} {g g' : StackGraph} {p : Place} {c c' : Configuration}

theorem mono (h : c.Walks alt g p) (grown : g.Extends g') : c.Walks alt g' p :=
  { h with stack := grown.holds h.stack }

/-- Threads with empty stacks differ in their states and in what the precedence filter asks. -/
theorem same_iff (h : c.Walks alt g (q, [])) (h' : c'.Walks alt g (q', [])) :
    c.same c' = true ↔ q = q' ∧ c.suppressed = c'.suppressed := by
  simp [same, h.alt, h'.alt, h.state, h'.state, h.stack.eq_zero, h'.stack.eq_zero, h.unguarded,
    h'.unguarded, h.actions, h'.actions, h.patient, h'.patient]

end Configuration.Walks

/-! ### Fuel -/

/-- The fuel suffices for a search from the place with so many marks left: between two of them there
are at most `D` silent moves. -/
def Network.Suffices (n : Network) (D fuel left : Nat) (p : Place) : Prop :=
  ∃ d, n.SettlesWithin d p ∧ left * (D + 1) + d < fuel

namespace Network.Suffices

variable {n : Network} {D fuel left left' : Nat} {p p' : Place}

theorem mono (h : n.Suffices D fuel left p) (fewer : left' ≤ left) : n.Suffices D fuel left' p := by
  obtain ⟨d, settles, enough⟩ := h
  have less := Nat.mul_le_mul_right (D + 1) fewer
  exact ⟨d, settles, by omega⟩

theorem silent (h : n.Suffices D (fuel + 1) left p) (move : n.Silent p p') : n.Suffices D fuel left p' := by
  obtain ⟨d, settles, enough⟩ := h
  cases d with
  | zero => exact absurd move (settles p')
  | succ d => exact ⟨d, settles p' move, by omega⟩

/-- One more mark pays for the moves behind it. -/
theorem mark (h : n.Suffices D (fuel + 1) left p) (settles : n.SettlesWithin D p') (fewer : left' < left) :
    n.Suffices D fuel left' p' := by
  obtain ⟨d, -, enough⟩ := h
  have less := Nat.mul_le_mul_right (D + 1) (Nat.succ_le_of_lt fewer)
  rw [Nat.succ_mul] at less
  exact ⟨D, settles, by omega⟩

theorem pos (h : n.Suffices D fuel left p) : 0 < fuel := by
  obtain ⟨d, -, enough⟩ := h
  omega

end Network.Suffices

namespace Closure

variable {n : Network} {D fuel : Nat} {acc acc' : Closure} {p p' : Place} {c : Configuration}

/-- The states and flags of threads that may still be marked. -/
def unmarked (n : Network) (acc : Closure) : Finset (Nat × Bool) :=
  (Finset.range n.states.size ×ˢ Finset.univ).filter fun key =>
    ∀ c ∈ acc.busy, (c.state, c.suppressed) ≠ key

theorem unmarked_subset (more : acc.busy ⊆ acc'.busy) : acc'.unmarked n ⊆ acc.unmarked n :=
  Finset.monotone_filter_right _ fun _ _ new c mem => new c (more mem)

theorem card_unmarked_lt (inRange : c.state < n.states.size)
    (new : ∀ c' ∈ acc.busy, (c'.state, c'.suppressed) ≠ (c.state, c.suppressed))
    (marked : acc'.busy = c :: acc.busy) : (acc'.unmarked n).card < (acc.unmarked n).card := by
  apply Finset.card_lt_card
  refine ⟨unmarked_subset fun c' mem => marked ▸ .tail _ mem, fun sub => ?_⟩
  have before : (c.state, c.suppressed) ∈ acc.unmarked n :=
    Finset.mem_filter.2 ⟨Finset.mem_product.2 ⟨Finset.mem_range.2 inRange, Finset.mem_univ _⟩, new⟩
  have after := (Finset.mem_filter.1 (sub before)).2 c (marked ▸ .head _)
  exact after rfl

/-- The fuel suffices from here: between two marks there are at most `D` silent moves. -/
def Affords (n : Network) (D fuel : Nat) (acc : Closure) (p : Place) : Prop :=
  ∃ d, n.SettlesWithin d p ∧ (acc.unmarked n).card * (D + 1) + d < fuel

namespace Affords

theorem mono (h : acc.Affords n D fuel p) (more : acc.busy ⊆ acc'.busy) : acc'.Affords n D fuel p :=
  Network.Suffices.mono h (Finset.card_le_card (unmarked_subset more))

theorem silent (h : acc.Affords n D (fuel + 1) p) (move : n.Silent p p') : acc.Affords n D fuel p' :=
  Network.Suffices.silent h move

theorem mark (h : acc.Affords n D (fuel + 1) p) (settles : n.SettlesWithin D p')
    (fewer : (acc'.unmarked n).card < (acc.unmarked n).card) : acc'.Affords n D fuel p' :=
  Network.Suffices.mark h settles fewer

theorem pos (h : acc.Affords n D fuel p) : 0 < fuel :=
  Network.Suffices.pos h

end Affords

end Closure

/-! ### Surveys -/

variable {σ τ : Type}

/-- How far a closure has come, with the places that it has found for its alternative. -/
structure Survey (σ τ : Type) where
  sim : Simulation σ τ
  acc : Closure
  found : Set Place

namespace Survey

variable {n : Network} {full : Bool} {A : Population} {alt : Nat} {v v' v'' : Survey σ τ}
  {p p' : Place} {c : Configuration}

/-- The states of the threads that are marked. -/
def behind (v : Survey σ τ) : Set Nat :=
  { q | ∃ c ∈ v.acc.busy, c.state = q }

/-- All is found that can be found from here, but for what is behind the marks. -/
abbrev Covers (n : Network) (full : Bool) (v : Survey σ τ) (p : Place) : Prop :=
  n.Covers full v.behind v.found p

/-- The threads of the closure are those of a population and the ones found for the alternative. -/
structure Valid (n : Network) (full : Bool) (A : Population) (alt : Nat) (v : Survey σ τ) : Prop where
  joined : v.sim.tables.arena.Joined full
  represents : v.acc.configs.Represents full v.sim.tables.graph (A ∪ Prod.mk alt '' v.found)
  marks : ∀ c ∈ v.acc.busy, c.Walks alt v.sim.tables.graph (c.state, []) ∧ c.state < n.states.size

/-- What a search from a place does: it finds places that can be reached, and all that is behind
the threads that it marks. -/
structure Gets (n : Network) (full : Bool) (A : Population) (alt : Nat) (p : Place)
    (v v' : Survey σ τ) : Prop where
  grown : v.sim.tables.graph.Extends v'.sim.tables.graph
  valid : v'.Valid n full A alt
  more : v.found ⊆ v'.found
  busy : v.acc.busy ⊆ v'.acc.busy
  sound : ∀ p' ∈ v'.found, p' ∈ v.found ∨ p' ∈ n.restsFrom full p
  covers : ∀ c ∈ v'.acc.busy, c ∈ v.acc.busy ∨ v'.Covers n full (c.state, [])

/-- Mark a thread that leaves a rule without knowing its caller. -/
def mark (v : Survey σ τ) (c : Configuration) : Survey σ τ :=
  { v with acc := { configs := { v.acc.configs with dipsOutside := true }, busy := c :: v.acc.busy } }

theorem behind_subset (more : v.acc.busy ⊆ v'.acc.busy) : v.behind ⊆ v'.behind := by
  rintro q ⟨c, mem, rfl⟩
  exact ⟨c, more mem, rfl⟩

namespace Gets

theorem refl (valid : v.Valid n full A alt) (p : Place) : v.Gets n full A alt p v where
  grown := .refl _
  valid := valid
  more := subset_rfl
  busy := List.Subset.refl _
  sound _ mem := .inl mem
  covers _ mem := .inl mem

theorem lasts (h : v.Gets n full A alt p v') (covers : v.Covers n full p') : v'.Covers n full p' :=
  covers.mono (behind_subset h.busy) h.more

theorem trans (h : v.Gets n full A alt p v') (h' : v'.Gets n full A alt p v'') :
    v.Gets n full A alt p v'' where
  grown := h.grown.trans h'.grown
  valid := h'.valid
  more := h.more.trans h'.more
  busy := List.Subset.trans h.busy h'.busy
  sound p' mem := (h'.sound p' mem).elim (h.sound p') .inr
  covers c mem := by
    rcases h'.covers c mem with old | new
    · exact (h.covers c old).imp id fun covers => h'.lasts covers
    · exact .inr new

/-- What is found behind a move is found from the place in front of it. -/
theorem head (h : v.Gets n full A alt p' v') (move : n.Drifts full p p') : v.Gets n full A alt p v' :=
  { h with sound := fun p'' mem => (h.sound p'' mem).imp id fun ⟨path, stays⟩ => ⟨.head move path, stays⟩ }

/-- A marked thread, once all is found behind it. -/
theorem mark (h : (v.mark c).Gets n full A alt p v') (covers : v'.Covers n full (c.state, [])) :
    v.Gets n full A alt p v' where
  grown := h.grown
  valid := h.valid
  more := h.more
  busy := List.Subset.trans (List.subset_cons_self c v.acc.busy) h.busy
  sound := h.sound
  covers c' mem := by
    rcases h.covers c' mem with marked | new
    · rcases List.mem_cons.1 marked with rfl | old
      · exact .inr covers
      · exact .inl old
    · exact .inr new

end Gets

namespace Valid

theorem mark (h : v.Valid n full A alt) (walks : c.Walks alt v.sim.tables.graph (c.state, []))
    (inRange : c.state < n.states.size) : (v.mark c).Valid n full A alt where
  joined := h.joined
  represents := h.represents.dips
  marks c' mem := by
    rcases List.mem_cons.1 mem with rfl | old
    · exact ⟨walks, inRange⟩
    · exact h.marks c' old

/-- The stacks grow. -/
theorem grow (h : v.Valid n full A alt) (sim : Simulation σ τ)
    (grown : v.sim.tables.graph.Extends sim.tables.graph) (joined : sim.tables.arena.Joined full)
    (p : Place) : v.Gets n full A alt p { v with sim } where
  grown := grown
  valid := {
    joined
    represents := h.represents.mono h.joined.tidy grown
    marks := fun c mem => ⟨(h.marks c mem).1.mono grown, (h.marks c mem).2⟩ }
  more := subset_rfl
  busy := List.Subset.refl _
  sound _ mem := .inl mem
  covers _ mem := .inl mem

end Valid

/-- The computation goes on from a survey as a search from the place does, to one of which `Q`
holds. -/
def Leads (n : Network) (full : Bool) (A : Population) (alt : Nat) (p : Place) (v : Survey σ τ)
    (x : Prediction σ τ Closure) (Q : Survey σ τ → Prop) : Prop :=
  Ensures x v.sim (fun acc sim => ∃ found, v.Gets n full A alt p ⟨sim, acc, found⟩ ∧ Q ⟨sim, acc, found⟩)
    fun _ _ => False

namespace Leads

variable {x : Prediction σ τ Closure} {f : Closure → Prediction σ τ Closure} {Q Q' : Survey σ τ → Prop}

theorem pure (valid : v.Valid n full A alt) (holds : Q v) : v.Leads n full A alt p (Pure.pure v.acc) Q :=
  .of_ok rfl ⟨v.found, .refl valid p, holds⟩

theorem imp (h : v.Leads n full A alt p x Q) (weaker : ∀ v', v.Gets n full A alt p v' → Q v' → Q' v') :
    v.Leads n full A alt p x Q' :=
  Ensures.imp h (fun _ _ ⟨found, gets, holds⟩ => ⟨found, gets, weaker _ gets holds⟩) fun _ _ => id

/-- The search may have come from somewhere. -/
theorem after (h : v'.Leads n full A alt p x Q) (gets : v.Gets n full A alt p v') :
    Ensures x v'.sim (fun acc sim => ∃ found, v.Gets n full A alt p ⟨sim, acc, found⟩ ∧ Q ⟨sim, acc, found⟩)
      fun _ _ => False :=
  Ensures.imp h (fun _ _ ⟨found, gets', holds⟩ => ⟨found, gets.trans gets', holds⟩) fun _ _ => id

theorem bind (h : v.Leads n full A alt p x Q)
    (rest : ∀ v', v.Gets n full A alt p v' → Q v' → v'.Leads n full A alt p (f v'.acc) Q') :
    v.Leads n full A alt p (x >>= f) Q' :=
  Ensures.bind (Ensures.imp h (fun _ _ ⟨_, gets, holds⟩ => (rest _ gets holds).after gets) fun _ _ => id)

theorem get {f : Simulation σ τ → Prediction σ τ Closure} (h : v.Leads n full A alt p (f v.sim) Q) :
    v.Leads n full A alt p (get >>= f) Q :=
  Ensures.bind (.of_ok (Step.run_get v.sim) h)

theorem ite {b : Prop} [Decidable b] {y : Prediction σ τ Closure}
    (yes : b → v.Leads n full A alt p x Q) (no : ¬ b → v.Leads n full A alt p y Q) :
    v.Leads n full A alt p (if b then x else y) Q :=
  Ensures.ite yes no

theorem head (h : v.Leads n full A alt p' x Q) (move : n.Drifts full p p') : v.Leads n full A alt p x Q :=
  Ensures.imp h (fun _ _ ⟨found, gets, holds⟩ => ⟨found, gets.head move, holds⟩) fun _ _ => id

/-- What each step of a fold achieves lasts to its end. -/
theorem foldlM {α : Type} {f : Closure → α → Prediction σ τ Closure} {R : α → Survey σ τ → Prop}
    {as : List α} (valid : v.Valid n full A alt)
    (lasting : ∀ a v' v'', v'.Gets n full A alt p v'' → R a v' → R a v'')
    (step : ∀ a ∈ as, ∀ v', v.Gets n full A alt p v' → v'.Leads n full A alt p (f v'.acc a) (R a)) :
    v.Leads n full A alt p (as.foldlM f v.acc) fun v' => ∀ a ∈ as, R a v' := by
  induction as generalizing v with
  | nil => exact .pure valid (by simp)
  | cons a as ih =>
      rw [List.foldlM_cons]
      refine (step a (.head _) v (.refl valid p)).bind fun v' gets done => ?_
      -- What the first step achieved lasts through the others.
      refine (ih gets.valid fun a mem v'' gets' => step a (.tail _ mem) v'' (gets.trans gets')).imp ?_
      exact fun v'' gets' rest => List.forall_mem_cons.2 ⟨lasting a v' v'' gets' done, rest⟩

end Leads

end Survey

namespace Prediction

open Survey

variable {n : Network} {q : Problem τ} {full : Bool} {A : Population} {alt D fuel : Nat}
  {v v' : Survey σ τ} {p : Place} {c : Configuration} {s : State} {t : Transition}

theorem ofQuestion_state {number : Nat} (hq : q.grammar.network = n) (here : n.states[number]? = some s) :
    (Step.ofQuestion (q.grammar.network.state number) : Prediction σ τ State) = pure s := by
  rw [hq, Network.state, here]
  rfl

/-- A thread is found where it stays. -/
theorem addTo_leads (valid : v.Valid n full A alt) (walks : c.Walks alt v.sim.tables.graph p)
    (stays : n.Rests full p) :
    v.Leads n full A alt p (do pure { v.acc with configs := ← addTo v.acc.configs c }) fun v' =>
      v'.acc.busy = v.acc.busy ∧ p ∈ v'.found := by
  obtain ⟨grown, joined, represents⟩ := valid.represents.insert valid.joined walks.stack walks.unguarded
  have population : (A ∪ Prod.mk alt '' v.found).add c.alt c.state p.2 =
      A ∪ Prod.mk alt '' insert p v.found := by
    rw [Population.add, walks.alt, walks.state, Set.image_insert_eq, Set.union_insert]
  rw [population] at represents
  refine .of_ok rfl ⟨insert p v.found, ?_, rfl, Set.mem_insert p v.found⟩
  exact {
    grown
    valid := {
      joined
      represents
      marks := fun c mem => ⟨(valid.marks c mem).1.mono grown, (valid.marks c mem).2⟩ }
    more := Set.subset_insert p v.found
    busy := List.Subset.refl _
    sound := by
      rintro p' (rfl | old)
      · exact .inr ⟨.refl, stays⟩
      · exact .inl old
    covers := fun c mem => .inl mem }

/-- The prediction is one in an explorable network, where there are at most `D` silent moves between
two marks. -/
structure Explores (n : Network) (D : Nat) (q : Problem τ) : Prop where
  explorable : n.Explorable
  network : q.grammar.network = n
  decision : q.decisionState < n.states.size
  settles : ∀ q < n.states.size, n.SettlesWithin D (q, [])

/-- What an edge is followed for. -/
def Follows (n : Network) (full : Bool) (p : Place) (s : State) (t : Transition) (v : Survey σ τ) : Prop :=
  if s.isRuleStop then ∀ p', t.silently? p.2 = some p' → p'.1 ∈ v.behind
  else ∀ p', t.silently? p.2 = some p' → v.Covers n full p'

theorem follows_stop (stop : s.isRuleStop = true) :
    Follows n full p s t v ↔ ∀ p', t.silently? p.2 = some p' → p'.1 ∈ v.behind := by
  rw [Follows, if_pos stop]

theorem follows_inside (inside : s.isRuleStop = false) :
    Follows n full p s t v ↔ ∀ p', t.silently? p.2 = some p' → v.Covers n full p' := by
  rw [Follows, if_neg (by simp [inside])]

theorem Follows.lasts (gets : v.Gets n full A alt p v') (h : Follows n full p s t v) :
    Follows n full p s t v' := by
  cases stop : s.isRuleStop with
  | true =>
      rw [follows_stop stop] at h ⊢
      exact fun p' cross => Survey.behind_subset gets.busy (h p' cross)
  | false =>
      rw [follows_inside stop] at h ⊢
      exact fun p' cross => gets.lasts (h p' cross)

variable [TokenSource σ]

/-- Edges are crossed as silent moves are. -/
theorem cross_leads (ex : n.Explorable) (valid : v.Valid n full A alt)
    (walks : c.Walks alt v.sim.tables.graph p) (here : n.states[p.1]? = some s) (mem : t ∈ s.transitions)
    (collect inRule : Bool) :
    Ensures (cross q { fullContext := full, crossEof := false } collect inRule c t) v.sim
      (fun crossed sim => v.Gets n full A alt p { v with sim } ∧
        match crossed with
        | none => t.silently? p.2 = none
        | some target => ∃ p', t.silently? p.2 = some p' ∧ target.Walks alt sim.tables.graph p' ∧
            t.isEpsilon = true)
      fun _ _ => False := by
  have free := ex.unguarded s (Array.mem_of_getElem? here) t mem
  have moved (target : Nat) : { c with state := target }.Walks alt v.sim.tables.graph (target, p.2) :=
    { walks with state := rfl }
  cases t with
  | call target rule precedence follow =>
      have isState : follow < noState :=
        Nat.lt_of_lt_of_le (ex.wellFormed.follow_lt here mem) ex.small
      obtain ⟨grown, joined, pushed⟩ := valid.joined.push walks.stack walks.stack.present isState
      set arena := (v.sim.tables.arena.push c.stack follow).2 with harena
      have gets := valid.grow { v.sim with tables := { v.sim.tables with arena } } grown joined p
      refine .of_ok rfl ⟨gets, _, rfl, ?_, rfl⟩
      exact { walks with state := rfl, stack := pushed }
  | epsilon target => exact .of_ok rfl ⟨.refl valid p, _, rfl, moved target, rfl⟩
  | action target => exact .of_ok rfl ⟨.refl valid p, _, rfl, moved target, rfl⟩
  | predicate => cases free
  | precedence => cases free
  | atom | range | set | notSet | wildcard => exact .of_ok rfl ⟨.refl valid p, rfl⟩

/-- A search to which so much fuel is given finds all that can be found from a place. -/
def Searches (n : Network) (full : Bool) (A : Population) (alt D fuel : Nat)
    (onward : Bool → Int → Configuration → Closure → Prediction σ τ Closure) : Prop :=
  ∀ (collect : Bool) (depth : Int) (v : Survey σ τ) (c : Configuration) (p : Place),
    v.Valid n full A alt → c.Walks alt v.sim.tables.graph p → n.InRange p → v.acc.Affords n D fuel p →
    v.Leads n full A alt p (onward collect depth c v.acc) fun v' => v'.Covers n full p

variable {onward : Bool → Int → Configuration → Closure → Prediction σ τ Closure}

/-- An edge inside a rule is followed to all that can be found behind it. -/
theorem followEdge_inside (ex : n.Explorable) (searches : Searches n full A alt D fuel onward)
    (valid : v.Valid n full A alt) (walks : c.Walks alt v.sim.tables.graph p) (inRange : n.InRange p)
    (affords : v.acc.Affords n D (fuel + 1) p) (here : n.states[p.1]? = some s)
    (inside : s.isRuleStop = false) (mem : t ∈ s.transitions) (rule : Nat) (collect : Bool) (depth : Int) :
    v.Leads n full A alt p
      (followEdge q { fullContext := full, crossEof := false } rule onward collect depth c s v.acc t)
      (Follows n full p s t) := by
  unfold followEdge
  refine Ensures.bind ((cross_leads ex valid walks here mem _ _).imp ?_ fun _ _ => id)
  rintro crossed sim ⟨gets, outcome⟩
  cases crossed with
  | none =>
      refine (Leads.pure gets.valid ((follows_inside inside).2 ?_)).after gets
      intro p' cross
      cases outcome.symm.trans cross
  | some target =>
      obtain ⟨p', cross, walks', epsilon⟩ := outcome
      have move : n.Silent p p' := .edge here inside mem cross
      simp only [inside, Bool.false_eq_true, if_false, if_pos epsilon]
      have search := searches (collect && !isAction t)
        (if isCall t && decide (0 ≤ depth) then depth + 1 else depth) { v with sim } target p' gets.valid
        walks' (inRange.silent ex.wellFormed move) (affords.silent move)
      refine ((search.head (.silent move)).imp fun v' _ covers => ?_).after gets
      apply (follows_inside inside).2
      intro p'' cross'
      obtain rfl := Option.some.inj (cross.symm.trans cross')
      exact covers

/-- The end of a rule with unknown callers is left by an edge to a state that gets a mark. -/
theorem followEdge_stop (ex : Explores n D q)
    (searches : Searches n false A alt D fuel onward) (valid : v.Valid n false A alt)
    (walks : c.Walks alt v.sim.tables.graph p) (affords : v.acc.Affords n D (fuel + 1) p)
    (here : n.states[p.1]? = some s) (stop : s.isRuleStop = true) (empty : p.2 = [])
    (mem : t ∈ s.transitions) (rule : Nat) (collect : Bool) (depth : Int) :
    v.Leads n false A alt p
      (followEdge q { fullContext := false, crossEof := false } rule onward collect depth c s v.acc t)
      (Follows n false p s t) := by
  obtain ⟨follow, outermost, rfl, leaves⟩ := (ex.explorable.stops here stop).1 t mem
  have inRange := leaves.lt ex.explorable.wellFormed
  have move : n.Drifts false p (follow, []) := by
    rw [← Prod.mk.eta (p := p), empty]
    exact .leave rfl leaves
  have answers {v' : Survey σ τ} (marked : follow ∈ v'.behind) :
      Follows n false p s (.epsilon follow outermost) v' := by
    refine (follows_stop stop).2 fun p' cross => ?_
    obtain rfl := Option.some.inj cross
    exact marked
  unfold followEdge
  refine Ensures.bind ((cross_leads ex.explorable valid walks here mem _ _).imp ?_ fun _ _ => id)
  rintro crossed sim ⟨gets, outcome⟩
  cases crossed with
  | none => cases outcome
  | some target =>
      obtain ⟨p', cross, walks', -⟩ := outcome
      obtain rfl := Option.some.inj cross
      simp only [if_pos stop]
      set target' : Configuration := { target with
        suppressed := target.suppressed || leavesOperatorRule q rule (.epsilon follow outermost)
        outerDepth := target.outerDepth + 1 }
      have walks'' : target'.Walks alt sim.tables.graph (follow, []) := by
        rw [empty] at walks'
        exact { walks' with }
      have state : target'.state = follow := walks''.state
      refine .ite (fun known => ?_) fun new => ?_
      · -- The state has its mark already. What is behind it need not have been found yet.
        obtain ⟨c', marked, same⟩ := List.any_eq_true.1 known
        refine (Leads.pure gets.valid (answers ⟨c', marked, ?_⟩)).after gets
        exact ((walks''.same_iff (gets.valid.marks c' marked).1).1 same).1.symm
      · have unmarked : ∀ c' ∈ v.acc.busy, (c'.state, c'.suppressed) ≠ (target'.state, target'.suppressed) := by
          intro c' marked equal
          obtain ⟨equal, flag⟩ := Prod.mk.inj equal
          apply new
          refine List.any_eq_true.2 ⟨c', marked, ?_⟩
          exact (walks''.same_iff (gets.valid.marks c' marked).1).2 ⟨(equal.trans state).symm, flag.symm⟩
        have fewer : ((mark { v with sim } target').acc.unmarked n).card < (v.acc.unmarked n).card :=
          Closure.card_unmarked_lt (state ▸ inRange) unmarked rfl
        have search := searches (collect && !isAction (.epsilon follow outermost)) (depth - 1)
          (mark { v with sim } target') target' (follow, [])
          (gets.valid.mark (by rw [state]; exact walks'') (state ▸ inRange)) walks''
          ⟨inRange, by simp⟩ (affords.mark (ex.settles follow inRange) fewer)
        refine Ensures.imp search ?_ fun _ _ => id
        rintro acc sim' ⟨found, gets', covers⟩
        rw [← state] at covers
        have marked : target' ∈ acc.busy := gets'.busy (.head _)
        exact ⟨found, gets.trans ((gets'.mark covers).head move), answers ⟨target', marked, state⟩⟩

/-- A thread goes on in two steps: it is kept, and its edges are followed. -/
theorem expand_eq {mode : ClosureMode} {acc : Closure} (hq : q.grammar.network = n)
    (decision : q.decisionState < n.states.size) (here : n.states[c.state]? = some s) (collect : Bool)
    (depth : Int) : ∃ rule, expand q mode onward collect depth c acc =
      (if s.isEpsilonOnly = true then pure acc else do pure { acc with configs := ← addTo acc.configs c })
        >>= s.transitions.foldlM (followEdge q mode rule onward collect depth c s) := by
  obtain ⟨start, decision⟩ : ∃ start, n.states[q.decisionState]? = some start :=
    ⟨_, Array.getElem?_eq_getElem decision⟩
  refine ⟨start.rule, ?_⟩
  unfold expand
  simp only [ofQuestion_state hq here, ofQuestion_state hq decision, pure_bind]
  split <;> simp

/-- All is found behind a thread that goes on by the edges of its state. -/
theorem expand_leads (ex : Explores n D q)
    (searches : Searches n full A alt D fuel onward) (valid : v.Valid n full A alt)
    (walks : c.Walks alt v.sim.tables.graph p) (inRange : n.InRange p)
    (affords : v.acc.Affords n D (fuel + 1) p) (here : n.states[p.1]? = some s)
    (outside : s.isRuleStop = true → full = false ∧ p.2 = []) (collect : Bool) (depth : Int) :
    v.Leads n full A alt p
      (expand q { fullContext := full, crossEof := false } onward collect depth c v.acc)
      (Survey.Covers n full · p) := by
  have rests := ex.explorable.rests_iff here outside
  have own : v.Leads n full A alt p (if s.isEpsilonOnly = true then pure v.acc
      else do pure { v.acc with configs := ← addTo v.acc.configs c })
      fun v' => n.Rests full p → p ∈ v'.found := by
    refine .ite (fun passes => .pure valid fun stays => ?_) fun reads => ?_
    · rw [rests.1 stays] at passes
      cases passes
    · refine (addTo_leads valid walks (rests.2 (by simpa using reads))).imp ?_
      exact fun _ _ added _ => added.2
  have state : n.states[c.state]? = some s := walks.state ▸ here
  obtain ⟨rule, expands⟩ := expand_eq (σ := σ) ex.network ex.decision state collect depth
  rw [expands]
  refine own.bind fun v₁ gets own => ?_
  refine (Leads.foldlM gets.valid (R := Follows n full p s) (fun _ _ _ => Follows.lasts) ?_).imp ?_
  · intro t mem v₂ gets'
    have walks := (walks.mono gets.grown).mono gets'.grown
    have affords := (affords.mono gets.busy).mono gets'.busy
    cases stop : s.isRuleStop with
    | false => exact followEdge_inside ex.explorable searches gets'.valid walks inRange affords here stop mem _ _ _
    | true =>
        obtain ⟨rfl, empty⟩ := outside stop
        exact followEdge_stop ex searches gets'.valid walks affords here stop empty mem _ _ _
  · intro v₂ gets' follows
    apply Network.Covers.intro fun stays => gets'.more (own stays)
    · intro _ _ follow leaves
      have stop := leaves.isRuleStop ex.explorable.wellFormed here
      obtain ⟨outermost, mem⟩ := (ex.explorable.stops here stop).2 follow leaves
      exact (follows_stop stop).1 (follows _ mem) (follow, p.2) rfl
    · intro p' move
      cases move with
      | edge here' inside mem cross =>
          obtain rfl := Option.some.inj (here.symm.trans here')
          exact (follows_inside inside).1 (follows _ mem) p' cross
      | back here' stop =>
          obtain rfl := Option.some.inj (here.symm.trans here')
          cases (outside stop).2

/-- With enough fuel, closing over a thread finds all that can be found. -/
theorem close_searches (ex : Explores n D q) (fuel : Nat) :
    Searches n full A alt D fuel (close (σ := σ) q { fullContext := full, crossEof := false } fuel) := by
  induction fuel with
  | zero => exact fun _ _ _ _ _ _ _ _ affords => absurd affords.pos (Nat.lt_irrefl 0)
  | succ fuel ih =>
      intro collect depth v c p valid walks inRange affords
      obtain ⟨s, here⟩ : ∃ s, n.states[p.1]? = some s := ⟨_, Array.getElem?_eq_getElem inRange.1⟩
      have expands (outside : s.isRuleStop = true → full = false ∧ p.2 = []) :=
        expand_leads ex ih valid walks inRange affords here outside collect depth
      rw [close, ofQuestion_state ex.network (walks.state ▸ here), pure_bind]
      extract_lets onward
      refine Leads.ite (fun inside => ?_) fun stop => ?_
      · exact expands fun stop => by simp [stop] at inside
      have stop : s.isRuleStop = true := by simpa using stop
      obtain ⟨number, frames⟩ := p
      cases frames with
      | nil =>
          rw [if_pos walks.stack.eq_zero]
          refine Leads.ite (fun exact => ?_) fun unknown => ?_
          · subst exact
            have stays : n.Rests true (number, []) := ⟨s, here, .inr ⟨stop, rfl, .inl rfl⟩⟩
            exact (addTo_leads valid walks stays).imp fun v' _ added => .ended here stop added.2
          · exact expands fun _ => ⟨by simpa using unknown, rfl⟩
      | cons resume frames =>
          obtain ⟨called, isState, parent, node, below⟩ := walks.stack.node_cons
          have back : n.Silent (number, resume :: frames) (resume, frames) := .back here stop
          have search := ih collect (depth - 1) v
            { c with state := resume, stack := parent, actions := none, passedNonGreedy := false }
            (resume, frames) valid { walks with state := rfl, stack := below, actions := rfl, patient := rfl }
            (inRange.silent ex.explorable.wellFormed back) (affords.silent back)
          rw [if_neg called]
          apply Leads.get
          have onlyWay : (v.sim.tables.graph.node c.stack).entries = [(parent, resume)] := by
            rw [node, StackNode.entries]
          simp only [onlyWay, List.foldlM_cons, List.foldlM_nil, bind_pure, if_neg isState]
          exact (search.head (.silent back)).imp fun v' _ covers => .back here stop covers

/-- A closure that begins without marks finds exactly the places that can be reached. -/
theorem close_finds (ex : Explores n D q) {sim : Simulation σ τ}
    {configs : ConfigurationSet} (joined : sim.tables.arena.Joined full)
    (represents : configs.Represents full sim.tables.graph A) (walks : c.Walks alt sim.tables.graph p)
    (inRange : n.InRange p) (affords : Closure.Affords n D fuel { configs } p) :
    Ensures (close q { fullContext := full, crossEof := false } fuel true 0 c { configs }) sim
      (fun acc sim' => sim.tables.graph.Extends sim'.tables.graph ∧ sim'.tables.arena.Joined full ∧
        acc.configs.Represents full sim'.tables.graph
          (A ∪ Prod.mk alt '' n.restsFrom full p))
      fun _ _ => False := by
  have valid : Survey.Valid n full A alt (⟨sim, { configs }, ∅⟩ : Survey σ τ) := by
    refine ⟨joined, ?_, by simp⟩
    rwa [Set.image_empty, Set.union_empty]
  refine Ensures.imp (close_searches ex fuel true 0 _ c p valid walks inRange affords)
    ?_ fun _ _ => id
  rintro acc sim' ⟨found, gets, covers⟩
  have exact : found = n.restsFrom full p := by
    ext p'
    constructor
    · exact fun mem => (gets.sound p' mem).elim (fun none => none.elim) id
    · rintro ⟨path, stays⟩
      apply Network.Covers.closed covers ?_ path stays
      -- All marks are of this search.
      rintro _ ⟨c', marked, rfl⟩
      exact (gets.covers c' marked).elim (fun none => by cases none) id
  rw [← exact]
  exact ⟨gets.grown, gets.valid.joined, gets.valid.represents⟩

end Prediction

namespace Network

variable {n : Network} {full : Bool} {frames : List Nat} {t : Transition} {i : Nat}
  {branches : List (Transition × Nat)}

/-- The threads with which a prediction starts: those that stay somewhere when they come from the
target of an edge of the decision. The edges are those for the alternatives, from 1 on. -/
def startThreads (n : Network) (full : Bool) (frames : List Nat) (branches : List (Transition × Nat)) :
    Population :=
  { thread | ∃ t i, (t, i) ∈ branches ∧ thread.1 = i + 1 ∧ thread.2 ∈ n.restsFrom full (t.target, frames) }

theorem startThreads_nil : n.startThreads full frames [] = ∅ := by
  simp [startThreads]

theorem startThreads_cons : n.startThreads full frames ((t, i) :: branches) =
    Prod.mk (i + 1) '' n.restsFrom full (t.target, frames) ∪ n.startThreads full frames branches := by
  ext ⟨alt, p⟩
  simp only [startThreads, List.mem_cons, Set.mem_union, Set.mem_image, Set.mem_ofPred_eq, Prod.mk.injEq]
  constructor
  · rintro ⟨t', i', ⟨rfl, rfl⟩ | mem, rfl, stays⟩
    · exact .inl ⟨p, stays, rfl, rfl⟩
    · exact .inr ⟨t', i', mem, rfl, stays⟩
  · rintro (⟨_, stays, rfl, rfl⟩ | ⟨t', i', mem, rfl, stays⟩)
    · exact ⟨t, i, .inl ⟨rfl, rfl⟩, rfl, stays⟩
    · exact ⟨t', i', .inr mem, rfl, stays⟩

end Network

namespace Prediction

variable [TokenSource σ] {n : Network} {q : Problem τ} {full : Bool} {A : Population} {D : Nat}
  {s : State} {frames : List Nat} {stack : Nat}

/-- The threads behind some edges of a decision. -/
theorem closeAll_finds (ex : Explores n D q) (branches : List (Transition × Nat))
    (within : ∀ e ∈ branches, n.InRange (e.1.target, frames) ∧ n.SettlesWithin D (e.1.target, frames))
    (enough : n.states.size * 2 * (D + 1) + D < q.fuel) {sim : Simulation σ τ}
    {configs : ConfigurationSet} (joined : sim.tables.arena.Joined full)
    (represents : configs.Represents full sim.tables.graph A) (holds : sim.tables.graph.Holds stack frames) :
    Ensures (branches.foldlM (fun configs (t, i) => do
        let c := { state := t.target, alt := i + 1, stack }
        return (← close q { fullContext := full, crossEof := false } q.fuel true 0 c { configs }).configs)
        configs) sim
      (fun configs sim' => sim'.tables.arena.Joined full ∧
        configs.Represents full sim'.tables.graph (A ∪ n.startThreads full frames branches))
      fun _ _ => False := by
  induction branches generalizing sim configs A with
  | nil =>
      refine .of_ok rfl ⟨joined, ?_⟩
      rwa [Network.startThreads_nil, Set.union_empty]
  | cons e branches ih =>
      obtain ⟨t, i⟩ := e
      obtain ⟨inRange, settled⟩ := within (t, i) (.head _)
      have affords : Closure.Affords n D q.fuel { configs } (t.target, frames) := by
        refine ⟨D, settled, Nat.lt_of_le_of_lt ?_ enough⟩
        have few : (Closure.unmarked n { configs }).card ≤ n.states.size * 2 := by
          refine (Finset.card_filter_le _ _).trans ?_
          simp
        exact Nat.add_le_add_right (Nat.mul_le_mul_right (D + 1) few) D
      have walks : Configuration.Walks (i + 1) sim.tables.graph (t.target, frames)
          { state := t.target, alt := i + 1, stack } := ⟨rfl, rfl, holds, rfl, rfl, rfl⟩
      rw [List.foldlM_cons]
      refine .bind (.bind ((close_finds ex joined represents walks inRange affords).imp
        ?_ fun _ _ => id))
      rintro acc sim' ⟨grown, joined', represents'⟩
      refine .of_ok rfl ?_
      refine (ih (fun e mem => within e (.tail _ mem)) joined' represents' (grown.holds holds)).imp ?_
        fun _ _ => id
      rintro configs' sim'' ⟨joined'', represents''⟩
      refine ⟨joined'', ?_⟩
      rwa [Network.startThreads_cons, ← Set.union_assoc]

/-- One number bounds the silent moves between two marks. -/
theorem exists_settles (acyclic : n.NoSilentCycle) (branches : List (Transition × Nat)) (frames : List Nat) :
    ∃ D, (∀ q < n.states.size, n.SettlesWithin D (q, [])) ∧
      ∀ e ∈ branches, n.SettlesWithin D (e.1.target, frames) := by
  have finite : ((fun q => (q, [])) '' Set.Iio n.states.size ∪
      { p : Place | ∃ e ∈ branches, p = (e.1.target, frames) }).Finite := by
    apply ((Set.finite_Iio _).image _).union
    refine (List.finite_toSet (branches.map fun e => ((e.1.target, frames) : Place))).subset ?_
    rintro _ ⟨e, mem, rfl⟩
    exact List.mem_map.2 ⟨e, mem, rfl⟩
  obtain ⟨D, settles⟩ := Network.exists_settlesWithin_of_finite finite
    fun p _ => Network.exists_settlesWithin acyclic p
  exact ⟨D, fun q lt => settles _ (.inl ⟨q, lt, rfl⟩), fun e mem => settles _ (.inr ⟨e, mem, rfl⟩)⟩

end Prediction

/-- In an assembled network without guarded edges and without silent cycles, the start of a
prediction stands for exactly the threads that can be reached without reading, each of them once:
with the full context from any stack, else from the empty stack, and then up to threads that have
less on their stacks. From some bound on, the fuel does not matter. -/
theorem Prediction.startConfigs_reachable {kind : GrammarKind} {plan : Blueprint} {n : Network}
    (built : Network.assemble kind plan = .ok n) (bare : plan.StopsBare)
    (unguarded : n.IsPredicateFree) (acyclic : n.NoSilentCycle) (small : n.states.size ≤ noState)
    {decision : Nat} {s : State} (here : n.states[decision]? = some s) (full : Bool) {frames : List Nat}
    (inRange : ∀ q ∈ frames, q < n.states.size) :
    ∃ bound, ∀ {σ τ : Type} [TokenSource σ] (q : Problem τ) (sim : Simulation σ τ) (stack : Nat),
      q.grammar.network = n → q.decisionState = decision → bound ≤ q.fuel →
      sim.tables.graph.Tidy → sim.tables.graph.Ordered → sim.tables.arena.memo = [] →
      sim.tables.graph.Holds stack frames →
      ∃ configs sim', (startConfigs q full stack).run sim = (.ok configs, sim') ∧
        (configs.threadList sim'.tables.graph).Nodup ∧
        ∀ thread, thread ∈ configs.threadList sim'.tables.graph ↔
          thread ∈ (n.startThreads full frames s.transitions.zipIdx).settle full := by
  have ex : n.Explorable :=
    ⟨Network.wellFormed_of_assemble built, small, unguarded, Network.stopsReturn_of_assemble built bare⟩
  obtain ⟨D, settles, settled⟩ := exists_settles acyclic s.transitions.zipIdx frames
  refine ⟨n.states.size * 2 * (D + 1) + D + 1, ?_⟩
  intro σ τ _ q sim stack hq hd enough tidy ordered fresh holds
  have start : n.states[q.decisionState]? = some s := hd ▸ here
  have explores : Explores n D q := ⟨ex, hq, (Array.getElem?_eq_some_iff.1 start).1, settles⟩
  have within : ∀ e ∈ s.transitions.zipIdx,
      n.InRange (e.1.target, frames) ∧ n.SettlesWithin D (e.1.target, frames) := by
    rintro ⟨t, i⟩ mem
    have edge : t ∈ s.transitions := List.mem_of_getElem? (List.mem_zipIdx_iff_getElem?.1 mem)
    exact ⟨⟨ex.wellFormed.target_lt here edge, inRange⟩, settled (t, i) mem⟩
  have finds := closeAll_finds explores s.transitions.zipIdx within enough
    (.of_fresh tidy ordered fresh) (.empty full sim.tables.graph) holds
  obtain ⟨configs, sim', run, joined, represents⟩ := finds.exists_ok
  rw [Set.empty_union] at represents
  refine ⟨configs, sim', ?_, represents.nodup_threadList joined.tidy joined.ordered, fun thread => ?_⟩
  · rw [startConfigs, ofQuestion_state hq start, pure_bind]
    exact run
  · exact Set.ext_iff.1 represents.threads_eq thread

/-- A choice between a call of the second rule and a token. The second rule starts with an edge to
the end of the third one, which nothing calls. -/
def detour : Blueprint where
  maxToken := 1
  states := [
    { rule := 0, kind := .ruleStart 1 false, transitions := [.plain 2] },
    { rule := 0, kind := .ruleStop },
    { rule := 0, kind := .blockStart .choice 5, transitions := [.plain 3, .plain 4] },
    { rule := 0, kind := .basic, transitions := [.call 6 1 0 5] },
    { rule := 0, kind := .basic, transitions := [.atom 5 1] },
    { rule := 0, kind := .blockEnd, transitions := [.plain 1] },
    { rule := 1, kind := .ruleStart 7 false, transitions := [.plain 9] },
    { rule := 1, kind := .ruleStop },
    { rule := 2, kind := .ruleStart 9 false, transitions := [.plain 9] },
    { rule := 2, kind := .ruleStop }]
  rules := [⟨0, none⟩, ⟨6, none⟩, ⟨8, none⟩]
  modes := []
  decisions := [2]

/-- The network of `detour`. -/
def detourNetwork : Network where
  kind := .parser
  maxToken := 1
  states := #[
    { rule := 0, kind := .ruleStart 1 false, transitions := [.plain 2] },
    { rule := 0, kind := .ruleStop },
    { rule := 0, kind := .blockStart .choice 5, transitions := [.plain 3, .plain 4], decision := some 0 },
    { rule := 0, kind := .basic, transitions := [.call 6 1 0 5] },
    { rule := 0, kind := .basic, transitions := [.atom 5 1] },
    { rule := 0, kind := .blockEnd, transitions := [.plain 1], partner := some 2 },
    { rule := 1, kind := .ruleStart 7 false, transitions := [.plain 9] },
    { rule := 1, kind := .ruleStop, transitions := [.epsilon 5 none] },
    { rule := 2, kind := .ruleStart 9 false, transitions := [.plain 9] },
    { rule := 2, kind := .ruleStop }]
  decisions := #[2]
  ruleStarts := #[0, 6, 8]
  ruleStops := #[1, 7, 9]
  ruleTokens := #[]
  modes := #[]
  actions := #[]

/-- The decision of `detour`. -/
def detourProblem (fuel : Nat) : Problem Unit where
  grammar := { network := detourNetwork, names := {} }
  mode := .sll
  fuel
  decision := 0
  decisionState := 2
  byPrecedence := false
  start := 0
  situation := {
    node := none, invoking := [], precedence := 0, state := 2, ask := fun _ host => (true, host) }

/-- A simulation that has not begun. -/
def detourSimulation : Simulation TokenList Unit :=
  .ofInput detourNetwork (.ofNetwork detourNetwork) { source := { tokens := #[] } } ()

theorem noSilentCycle_detour : detourNetwork.NoSilentCycle := by
  have descends : detourNetwork.Descends ([7, 1, 6, 5, 0, 2, 2, 1, 2, 1].getD · 0) := by decide
  exact Network.noSilentCycle_of_descends descends

open Prediction in
/-- With the full context, from the empty stack. -/
theorem startConfigs_reachable_detour : ∃ fuel configs sim,
    (startConfigs (detourProblem fuel) true 0).run detourSimulation = (.ok configs, sim) ∧
      (configs.threadList sim.tables.graph).Nodup ∧ ∀ thread,
        thread ∈ configs.threadList sim.tables.graph ↔
          thread ∈ (detourNetwork.startThreads true [] [(.plain 3, 0), (.plain 4, 1)]).settle true := by
  have built : Network.assemble .parser detour = .ok detourNetwork := by decide +kernel
  have here : detourNetwork.states[2]? = some detourNetwork.states[2] := rfl
  obtain ⟨bound, finds⟩ := startConfigs_reachable built (by decide) (by decide) noSilentCycle_detour
    (by decide) here true (fun q (none : q ∈ []) => by cases none)
  exact ⟨bound, finds (detourProblem bound) detourSimulation 0 rfl rfl (Nat.le_refl bound) .empty .empty rfl
    .empty⟩

/-- The places of `detour` that the call leads to. -/
def detourPlaces : List Place :=
  [(3, []), (6, [5]), (9, [5]), (5, []), (1, [])]

/-- In `detour`, only the end of the second rule is left for unknown callers. -/
theorem leaves_detour {q follow : Nat} (leaves : detourNetwork.Leaves q follow) : q = 7 := by
  obtain ⟨caller, s, target, rule, precedence, here, mem, stop⟩ := leaves
  have onlyCall : ∀ s ∈ detourNetwork.states, ∀ t ∈ s.transitions,
      Prediction.isCall t = true → t = .call 6 1 0 5 := by decide
  obtain ⟨-, rfl, -⟩ := Transition.call.inj (onlyCall s (Array.mem_of_getElem? here) _ mem rfl)
  exact (Option.some.inj stop).symm

theorem mem_detourPlaces {p : Place} (path : ReflTransGen (detourNetwork.Drifts false) (3, []) p) :
    p ∈ detourPlaces := by
  have closed : ∀ p ∈ detourPlaces, ∀ p' ∈ detourNetwork.silentSteps p, p' ∈ detourPlaces := by decide
  have kept : (7, []) ∉ detourPlaces := by decide
  induction path with
  | refl => exact .head _
  | tail _ drift ih =>
      cases drift with
      | silent move => exact closed _ ih _ move.mem_silentSteps
      | leave _ leaves =>
          obtain rfl := leaves_detour leaves
          exact absurd ih kept

/-- Without the full context, a thread at the end of a rule that no edge leaves does not stay there
while a call is open. -/
theorem startConfigs_open_detour :
    let run := (Prediction.startConfigs (detourProblem 20) false 0).run detourSimulation
    Network.assemble .parser detour = .ok detourNetwork ∧ detour.StopsBare ∧
      detourNetwork.IsPredicateFree ∧ detourNetwork.NoSilentCycle ∧
      run.1.toOption.map (·.threadList run.2.tables.graph) = some [(1, 1, []), (2, 4, [])] ∧
      (1, 9, [5]) ∈ Population.settle false { thread | ∃ t i s,
        (t, i) ∈ [(Transition.plain 3, 0), (.plain 4, 1)] ∧ thread.1 = i + 1 ∧
          ReflTransGen (detourNetwork.Drifts false) (t.target, []) thread.2 ∧
            detourNetwork.states[thread.2.1]? = some s ∧
              ((s.isRuleStop = false ∧ s.isEpsilonOnly = false) ∨
                (s.isRuleStop = true ∧ s.transitions = [])) } := by
  refine ⟨by decide +kernel, by decide, by decide, noSilentCycle_detour, by decide +kernel, ?_, ?_⟩
  · have call : detourNetwork.Silent (3, []) (6, [5]) :=
      .edge (t := .call 6 1 0 5) rfl rfl (.head _) rfl
    have cross : detourNetwork.Silent (6, [5]) (9, [5]) := .edge (t := .plain 9) rfl rfl (.head _) rfl
    exact ⟨_, 0, _, .head _, rfl, .tail (.single (.silent call)) (.silent cross), rfl, .inr ⟨rfl, rfl⟩⟩
  · rintro - frames ⟨t, i, s, mem, first, path, -, -⟩ -
    obtain rfl : i = 0 := (Nat.succ.inj first).symm
    obtain rfl : t = .plain 3 := by simpa using mem
    have only : ∀ p ∈ detourPlaces, p.1 = 9 → p.2 = [5] := by decide
    exact only _ (mem_detourPlaces path) rfl

end AdaptiveLL
