import AdaptiveLL.Proofs.Prediction.Between
import AdaptiveLL.Proofs.Prediction.Faithful
/-!
Tables at the end of the input. Whatever has been learned, and in whichever modes, an edge of a table
over the end of the input leads to a state where prediction stops: all threads that are left there
have finished their rules.
-/
namespace AdaptiveLL

open StackGraph

variable {σ τ : Type} {n : Network} {g g' : StackGraph}

/-- What is kept of a state of a table: its threads are there, and it is marked where prediction
stops. -/
structure TableState.Settled (n : Network) (g : StackGraph) (d : TableState) : Prop where
  rooted : d.configs.Rooted n False 0 g
  marked : d.isAccept = true ↔ d.configs.uniqueAlt ≠ noAlt ∨ d.configs.conflicting ≠ none

namespace TableState.Settled

variable {d e : TableState}

theorem mono (h : d.Settled n g) (tidy : g.Tidy) (grown : g.Extends g') : d.Settled n g' :=
  ⟨h.rooted.mono tidy grown, h.marked⟩

theorem of_eq (h : d.Settled n g) (configs : e.configs = d.configs) (accept : e.isAccept = d.isAccept) :
    e.Settled n g := by
  refine ⟨configs ▸ h.rooted, ?_⟩
  rw [accept, configs]
  exact h.marked

/-- Threads about which nothing has been settled. -/
theorem of_kept {set : ConfigurationSet} (h : set.Kept n False 0 g) : Settled n g { configs := set } :=
  ⟨h.rooted, by simp [h.unmarked]⟩

/-- States with equal threads stop alike. -/
theorem isAccept_of_same (h : d.Settled n g) (h' : e.Settled n g)
    (same : d.configs.same e.configs = true) : d.isAccept = e.isAccept := by
  obtain ⟨unique, conflicting, -⟩ := ConfigurationSet.same_marks same
  rw [Bool.eq_iff_iff, h.marked, h'.marked, unique, conflicting]

end TableState.Settled

namespace PredictionTable

/-- How a table is kept: at the end of the input, its edges lead to states where prediction stops. -/
structure Decisive (n : Network) (g : StackGraph) (t : PredictionTable) : Prop where
  number : ∀ {k : Nat} {d : TableState}, t.states[k]? = some d → d.number = k
  settled : ∀ d ∈ t.states, d.Settled n g
  ends : ∀ {k j : Nat}, ((k, Symbol.eof), some j) ∈ t.edges →
    ∃ d, t.states[j]? = some d ∧ d.isAccept = true

namespace Decisive

variable {t t' : PredictionTable} {source d : TableState} {x : Symbol}

theorem mono (h : t.Decisive n g) (tidy : g.Tidy) (grown : g.Extends g') : t.Decisive n g' :=
  ⟨h.number, fun d mem => (h.settled d mem).mono tidy grown, h.ends⟩

theorem of_empty (states : t.states = #[]) (edges : t.edges = []) : t.Decisive n g where
  number here := by simp [states] at here
  settled d mem := by simp [states] at mem
  ends mem := by simp [edges] at mem

theorem of_eq (h : t.Decisive n g) (states : t'.states = t.states) (edges : t'.edges = t.edges) :
    t'.Decisive n g := by
  refine ⟨fun here => h.number (states ▸ here), fun d mem => h.settled d (states ▸ mem), ?_⟩
  rw [states, edges]
  exact h.ends

theorem setStart (h : t.Decisive n g) (s : TableState) : (t.setStart s).Decisive n g := by
  unfold PredictionTable.setStart
  split
  · exact h.of_eq rfl rfl
  · exact h

theorem setPrecedenceStart (h : t.Decisive n g) (level : Int) (s : TableState) :
    (t.setPrecedenceStart level s).Decisive n g := by
  unfold PredictionTable.setPrecedenceStart
  split
  · exact h.of_eq rfl rfl
  · exact h

/-- A state that is added is in the table then, or one with equal threads is. -/
theorem addState (h : t.Decisive n g) (settled : d.Settled n g) :
    let added := t.addState d
    added.2.Decisive n g ∧ added.2.states[added.1.number]? = some added.1 ∧
      added.1.Settled n g ∧ added.1.isAccept = d.isAccept := by
  unfold PredictionTable.addState
  split
  case h_1 e found =>
      have mem := Array.mem_of_find?_eq_some found
      obtain ⟨k, here⟩ := Array.mem_iff_getElem?.1 mem
      have same := Array.find?_some found
      have accept := (h.settled e mem).isAccept_of_same settled same
      exact ⟨h, (h.number here).symm ▸ here, h.settled e mem, accept⟩
  case h_2 =>
      have new : TableState.Settled n g { d with number := t.states.size, generation := t.generation } :=
        settled.of_eq rfl rfl
      refine ⟨⟨fun {k e} here => ?_, fun e mem => ?_, fun {k j} mem => ?_⟩, Array.getElem?_push_size,
        new, rfl⟩
      · rw [Array.getElem?_push] at here
        split at here
        case isTrue last =>
            obtain rfl := Option.some.inj here
            exact last.symm
        case isFalse => exact h.number here
      · rcases Array.mem_push.1 mem with old | rfl
        · exact h.settled e old
        · exact new
      · obtain ⟨e, here, accept⟩ := h.ends mem
        obtain ⟨lt, -⟩ := Array.getElem?_eq_some_iff.1 here
        refine ⟨e, ?_, accept⟩
        rw [Array.getElem?_push, if_neg (Nat.ne_of_lt lt), here]

theorem addEdge_dead (h : t.Decisive n g) (source : TableState) (x : Symbol) :
    (t.addEdge source x .dead).Decisive n g := by
  unfold PredictionTable.addEdge
  simp only
  split
  case isFalse => exact h
  case isTrue =>
      refine { h with ends := fun mem => ?_ }
      rcases List.mem_cons.1 mem with new | old
      · cases (Prod.mk.inj new).2
      · exact h.ends (List.mem_of_mem_filter old)

/-- An edge over the end of the input may be entered if it leads to a state where prediction stops. -/
theorem addEdge (h : t.Decisive n g) (source : TableState) (here : t.states[d.number]? = some d)
    (stops : x = Symbol.eof → d.isAccept = true) : (t.addEdge source x (.state d)).Decisive n g := by
  unfold PredictionTable.addEdge
  simp only
  split
  case isFalse => exact h
  case isTrue =>
      split
      case isFalse => exact h
      case isTrue =>
          refine { h with ends := fun mem => ?_ }
          rcases List.mem_cons.1 mem with new | old
          · obtain ⟨⟨rfl, rfl⟩, ⟨rfl⟩⟩ := Prod.mk.inj new
            exact ⟨d, here, stops rfl⟩
          · exact h.ends (List.mem_of_mem_filter old)

/-- Where an edge leads that is known already. -/
theorem edge (h : t.Decisive n g) (known : t.edge? source x = some (.state d)) :
    d.Settled n g ∧ (x = Symbol.eof → d.isAccept = true) := by
  unfold edge? at known
  split at known
  case isFalse => cases known
  case isTrue =>
      split at known
      · cases known
      · cases known
      case h_3 j found =>
          obtain ⟨e, here, eq⟩ := Option.map_eq_some_iff.1 known
          obtain rfl := TableTarget.state.inj eq
          refine ⟨h.settled _ (Array.mem_of_getElem? here), ?_⟩
          rintro rfl
          obtain ⟨e', here', accept⟩ := h.ends (mem_of_lookup found)
          obtain rfl := Option.some.inj (here.symm.trans here')
          exact accept

end Decisive

end PredictionTable

/-- What is kept of all tables. -/
structure Tables.Decisive (n : Network) (t : Tables) : Prop where
  tidy : t.graph.Tidy
  tables : ∀ table ∈ t.tables, table.Decisive n t.graph

namespace Tables.Decisive

variable {t : Tables}

theorem ofNetwork (n : Network) : (Tables.ofNetwork n).Decisive n := by
  refine ⟨.empty, fun table mem => ?_⟩
  unfold Tables.ofNetwork at mem
  split at mem
  · obtain ⟨i, lt, rfl⟩ := Array.getElem_of_mem mem
    exact .of_empty (by simp) (by simp)
  · obtain ⟨i, lt, rfl⟩ := Array.getElem_of_mem mem
    exact .of_empty (by simp) (by simp)

theorem clear (h : t.Decisive n) : t.clear.Decisive n := by
  refine ⟨h.tidy, fun table mem => ?_⟩
  obtain ⟨old, -, rfl⟩ := Array.mem_map.1 mem
  exact .of_empty rfl rfl

end Tables.Decisive

section Settle

variable {set : ConfigurationSet}

/-- Putting threads to a set without their guards brings in no other stacks. -/
theorem foldl_insert_bare (cs : List Configuration) {acc : ConfigurationSet} {s : Stacks}
    (h : acc.Rooted n False 0 s.graph) (keeps : s.Keeps Among)
    (threads : ∀ c ∈ cs, c.Rooted n False 0 s.graph) :
    let all := cs.foldl (fun (acc : ConfigurationSet × Stacks) c =>
      acc.1.insert { c with guard := .always } acc.2) (acc, s)
    s.graph.Extends all.2.graph ∧ all.2.graph.Tidy := by
  induction cs generalizing acc s with
  | nil => exact ⟨.refl _, keeps.tidy⟩
  | cons c cs ih =>
      obtain ⟨first, others⟩ := List.forall_mem_cons.1 threads
      have bare : Configuration.Rooted n False 0 s.graph { c with guard := .always } :=
        first.goOn rfl rfl fun impossible => impossible.elim
      obtain ⟨grown, keeps', rooted⟩ := h.insert keeps bare
      obtain ⟨grown', tidy⟩ := ih rooted keeps' fun c mem => (others c mem).mono keeps.tidy grown
      exact ⟨grown.trans grown', tidy⟩

/-- Whether prediction stops on a set is found out by stacks that are put to the others. Where all
threads have ended, it does. -/
theorem Conflict.stops_spec {mode : PredictionMode} {stop : Bool} (tidy : g.Tidy)
    (h : set.Rooted n False 0 g) (found : Conflict.stops mode n set g = .ok (stop, g')) :
    g.Extends g' ∧ g'.Tidy ∧ (set.Ended n → stop = true) := by
  unfold Conflict.stops at found
  rw [← ConfigurationSet.allInRuleStop_eq_true]
  cases finished : set.allInRuleStop n with
  | error fault =>
      rw [finished] at found
      cases found
  | ok all =>
      rw [finished] at found
      cases all with
      | true =>
          obtain ⟨rfl, rfl⟩ := Prod.mk.inj (Except.ok.inj found)
          exact ⟨.refl _, tidy, fun _ => rfl⟩
      | false =>
          by_cases strips : (mode == .sll && set.hasGuards) = true
          · simp only [strips, if_true] at found
            obtain ⟨rfl, rfl⟩ := Prod.mk.inj (Except.ok.inj found)
            have fresh : Stacks.Keeps Among { graph := g } := ⟨tidy, fun _ mem => by cases mem⟩
            obtain ⟨grown, tidy⟩ := foldl_insert_bare set.toList (.empty n False 0 g _) fresh h
            exact ⟨grown, tidy, fun impossible => by cases impossible⟩
          · simp only [strips] at found
            obtain ⟨rfl, rfl⟩ := Prod.mk.inj (Except.ok.inj found)
            exact ⟨.refl _, tidy, fun impossible => by cases impossible⟩

namespace Prediction

variable [TokenSource σ] {q : Problem τ} {s : Simulation σ τ} {x : Symbol}

/-- At the end of the input prediction stops on every set. -/
theorem settle_settled (network : q.grammar.network = n) (keeps : s.tables.arena.Keeps Among)
    (h : set.Reached n False 0 s.tables.graph x) :
    Lingering s (settle q set) fun g d => d.Settled n g ∧ (x = Symbol.eof → d.isAccept = true) := by
  by_cases agree : set.agreedAlt = noAlt
  · have kept := h.kept agree
    cases found : Conflict.stops q.mode q.grammar.network set s.tables.graph with
    | error fault => exact .of_error (settle_fault agree found) (.refl keeps)
    | ok answer =>
        obtain ⟨stop, graph⟩ := answer
        rw [network] at found
        obtain ⟨grown, tidy, ended⟩ := Conflict.stops_spec keeps.tidy h.rooted found
        rw [← network] at found
        have rooted := h.rooted.mono keeps.tidy grown
        have keeps' := keeps.grow (mergeRule_among true) grown tidy
        refine .of_ok (settle_undecided agree found) ⟨⟨⟨rfl, rfl, grown, keeps', .refl _⟩, .refl _⟩, ?_, ?_⟩
        · cases stop with
          | true => exact ⟨rooted, by simp [undecided]⟩
          | false => exact ⟨rooted, by simp [undecided, kept.unmarked]⟩
        · intro eof
          rw [ended (h.ended eof)]
          rfl
  · unfold settle
    rw [if_pos agree]
    exact .pure keeps ⟨⟨h.rooted, by simp [agree]⟩, fun _ => rfl⟩

end Prediction

end Settle

end AdaptiveLL
