import AdaptiveLL.Proofs.Network.Answers
/-!
How often a lookahead walk visits a state. A walk enters no place twice, and it is never in more
calls than there were at the start and the network has rules. So it ends, and the number of its
visits is bounded by the size of the network and that of the call stack (`look_visits`).
-/
namespace AdaptiveLL

/-- The number of edges. -/
def Network.edgeCount (n : Network) : Nat :=
  (n.states.toList.flatMap State.transitions).length

theorem Network.length_le_edgeCount {n : Network} {q : Nat} {s : State}
    (here : n.states[q]? = some s) : s.transitions.length ≤ n.edgeCount :=
  have mem := Array.mem_toList_iff.2 (Array.mem_of_getElem? here)
  (List.sublist_flatten_of_mem (List.mem_map_of_mem mem)).length_le

namespace Lookahead

open Network

/-- What a walk has to do: to visit a state, or to follow edges one after the other. -/
inductive Task where
  | visit (called frames : List Nat) (state : Nat)
  | follow (called frames : List Nat) (edges : List Transition)

/-- The number of visits that a task makes by itself. -/
def Task.size : Task → Nat
  | visit .. => 1
  | follow _ _ edges => edges.length

/-- A walk is through with a task after so many visits. The places of the first list had been
entered before, those of the second one have been when the task is done. -/
inductive Performs (n : Network) (stop : Option Nat) :
    Task → List Place → Nat → List Place → Prop where
  | again {called frames : List Nat} {q : Nat} {seen : List Place} (been : (q, frames) ∈ seen) :
      Performs n stop (.visit called frames q) seen 1 seen
  | halt {called : List Nat} {q : Nat} {seen : List Place} (new : (q, []) ∉ seen)
      (here : some q = stop) : Performs n stop (.visit called [] q) seen 1 ((q, []) :: seen)
  | finish {called : List Nat} {q : Nat} {seen : List Place} {s : State} (new : (q, []) ∉ seen)
      (here : n.states[q]? = some s) (ends : s.isRuleStop = true) :
      Performs n stop (.visit called [] q) seen 1 ((q, []) :: seen)
  | back {called outer : List Nat} {q resume k : Nat} {seen seen' : List Place} {s r : State}
      (new : (q, resume :: outer) ∉ seen) (here : n.states[q]? = some s)
      (ends : s.isRuleStop = true) (there : n.states[resume]? = some r)
      (rest : Performs n stop (.visit (called.filter (· ≠ r.rule)) outer resume)
        ((q, resume :: outer) :: seen) k seen') :
      Performs n stop (.visit called (resume :: outer) q) seen (k + 1) seen'
  | enter {called frames : List Nat} {q k : Nat} {seen seen' : List Place} {s : State}
      (new : (q, frames) ∉ seen) (going : ¬ (some q = stop ∧ frames = []))
      (here : n.states[q]? = some s) (inside : s.isRuleStop = false)
      (rest : Performs n stop (.follow called frames s.transitions) ((q, frames) :: seen) k seen') :
      Performs n stop (.visit called frames q) seen (k + 1) seen'
  | done {called frames : List Nat} {seen : List Place} :
      Performs n stop (.follow called frames []) seen 0 seen
  /-- Edges that read and calls of rules that the walk is in make no visit. -/
  | skip {called frames : List Nat} {e : Transition} {edges : List Transition} {k : Nat}
      {seen seen' : List Place}
      (barred : e.silently? frames = none ∨ ∃ rule ∈ e.callee?, rule ∈ called)
      (rest : Performs n stop (.follow called frames edges) seen k seen') :
      Performs n stop (.follow called frames (e :: edges)) seen k seen'
  | cross {called frames : List Nat} {e : Transition} {edges : List Transition} {p : Place}
      {k k' : Nat} {seen seen' seen'' : List Place} (silent : e.silently? frames = some p)
      (free : ¬ ∃ rule ∈ e.callee?, rule ∈ called)
      (first : Performs n stop (.visit (e.callee?.toList ++ called) p.2 p.1) seen k seen')
      (rest : Performs n stop (.follow called frames edges) seen' k' seen'') :
      Performs n stop (.follow called frames (e :: edges)) seen (k + k') seen''

variable {n : Network} {stop : Option Nat} {ended : Symbol} {fuel q depth k : Nat}
  {called frames : List Nat} {w : Walk} {task : Task} {seen seen' : List Place}

/-- Beyond the visits of its own, a task makes one visit for each edge of a place that is new. -/
theorem Performs.count_le (h : Performs n stop task seen k seen') :
    k + (n.edgeCount + 1) * seen.length ≤ task.size + (n.edgeCount + 1) * seen'.length := by
  induction h with
  | again => exact Nat.le_refl _
  | halt | finish => simp only [Task.size, List.length_cons, Nat.mul_succ]; omega
  | back new here ends there rest ih =>
      simp only [Task.size, List.length_cons, Nat.mul_succ] at ih ⊢
      omega
  | enter new going here inside rest ih =>
      have few := length_le_edgeCount here
      simp only [Task.size, List.length_cons, Nat.mul_succ] at ih ⊢
      omega
  | done => exact Nat.le_refl _
  | skip barred rest ih =>
      simp only [Task.size, List.length_cons] at ih ⊢
      omega
  | cross silent free first rest ihFirst ihRest =>
      simp only [Task.size, List.length_cons] at ihFirst ihRest ⊢
      omega

/-- Nothing is left to choice, so that the number of visits is that of the walk. -/
theorem Performs.unique {k' : Nat} {seen'' : List Place} (h : Performs n stop task seen k seen')
    (h' : Performs n stop task seen k' seen'') : k = k' ∧ seen' = seen'' := by
  induction h generalizing k' seen'' with
  | again been =>
      cases h' with
      | again => exact ⟨rfl, rfl⟩
      | halt new | finish new | back new | enter new => exact absurd been new
  | halt new here =>
      cases h' with
      | again been => exact absurd been new
      | halt | finish => exact ⟨rfl, rfl⟩
      | enter _ going => exact absurd ⟨here, rfl⟩ going
  | finish new here ends =>
      cases h' with
      | again been => exact absurd been new
      | halt | finish => exact ⟨rfl, rfl⟩
      | enter _ _ here' inside =>
          obtain rfl := Option.some.inj (here.symm.trans here')
          cases ends.symm.trans inside
  | back new here ends there rest ih =>
      cases h' with
      | again been => exact absurd been new
      | back _ _ _ there' rest' =>
          obtain rfl := Option.some.inj (there.symm.trans there')
          exact (ih rest').imp_left (congrArg (· + 1))
      | enter _ _ here' inside =>
          obtain rfl := Option.some.inj (here.symm.trans here')
          cases ends.symm.trans inside
  | enter new going here inside rest ih =>
      cases h' with
      | again been => exact absurd been new
      | halt _ here' => exact absurd ⟨here', rfl⟩ going
      | finish _ here' ends | back _ here' ends =>
          obtain rfl := Option.some.inj (here.symm.trans here')
          cases ends.symm.trans inside
      | enter _ _ here' _ rest' =>
          obtain rfl := Option.some.inj (here.symm.trans here')
          exact (ih rest').imp_left (congrArg (· + 1))
  | done =>
      cases h'
      exact ⟨rfl, rfl⟩
  | skip barred rest ih =>
      cases h' with
      | skip _ rest' => exact ih rest'
      | cross silent free =>
          rcases barred with reads | again
          · cases reads.symm.trans silent
          · exact absurd again free
  | cross silent free first rest ihFirst ihRest =>
      cases h' with
      | skip barred =>
          rcases barred with reads | again
          · cases reads.symm.trans silent
          · exact absurd again free
      | cross silent' _ first' rest' =>
          obtain rfl := Option.some.inj (silent.symm.trans silent')
          obtain ⟨rfl, rfl⟩ := ihFirst first'
          exact (ihRest rest').imp_left (congrArg (_ + ·))

/-- The answer is that of a walk that is through with the task, and has lost nothing. -/
def Completes (n : Network) (stop : Option Nat) (height : Nat) (task : Task) (w : Walk)
    (answer : Except Fault Walk) : Prop :=
  ∃ w' k, answer = .ok w' ∧ (Fits n height w' ∧ w.visited.length ≤ w'.visited.length) ∧
    Performs n stop task w.visited k w'.visited

variable {height : Nat} {s : State} {e : Transition}

/-- What is done at an edge: one that reads, or calls a rule that the walk is in, is passed over. -/
theorem cross_performs (fits : Fits n height w)
    (rule_lt : ∀ p, e.silently? frames = some p → ∀ rule ∈ e.callee?, rule < n.ruleStarts.size)
    (follows : ∀ p, e.silently? frames = some p → (¬ ∃ rule ∈ e.callee?, rule ∈ called) →
      Completes n stop height (.visit (e.callee?.toList ++ called) p.2 p.1) w
        (visit n stop ended fuel (e.callee?.toList ++ called) p.2 p.1 w)) :
    ∃ w', cross n stop ended fuel called frames w e = .ok w' ∧
      (Fits n height w' ∧ w.visited.length ≤ w'.visited.length) ∧
      ((w'.visited = w.visited ∧ (e.silently? frames = none ∨ ∃ rule ∈ e.callee?, rule ∈ called)) ∨
        ∃ p k, e.silently? frames = some p ∧ (¬ ∃ rule ∈ e.callee?, rule ∈ called) ∧
          Performs n stop (.visit (e.callee?.toList ++ called) p.2 p.1) w.visited k w'.visited) := by
  cases silent : e.silently? frames with
  | none =>
      obtain ⟨found, run, proper, -⟩ := cross_reads n stop ended fuel called fits.proper silent
      exact ⟨_, run, ⟨⟨proper, fits.nodup, fits.inRange⟩, Nat.le_refl _⟩, .inl ⟨rfl, .inl rfl⟩⟩
  | some p =>
      rw [cross_silent silent (rule_lt p silent)]
      by_cases again : ∃ rule ∈ e.callee?, rule ∈ called
      · rw [if_pos again]
        exact ⟨w, rfl, ⟨fits, Nat.le_refl _⟩, .inl ⟨rfl, .inr again⟩⟩
      · rw [if_neg again]
        obtain ⟨w', k, run, kept, performs⟩ := follows p silent again
        exact ⟨w', run, kept, .inr ⟨p, k, rfl, again, performs⟩⟩

/-- The edges of a place are followed one after the other. -/
theorem follow_performs {step : Walk → Transition → Except Fault Walk} {edges : List Transition}
    (fits : Fits n height w)
    (each : ∀ e ∈ edges, ∀ v, Fits n height v → w.visited.length ≤ v.visited.length →
      ∃ v', step v e = .ok v' ∧ (Fits n height v' ∧ v.visited.length ≤ v'.visited.length) ∧
        ((v'.visited = v.visited ∧ (e.silently? frames = none ∨ ∃ rule ∈ e.callee?, rule ∈ called)) ∨
          ∃ p k, e.silently? frames = some p ∧ (¬ ∃ rule ∈ e.callee?, rule ∈ called) ∧
            Performs n stop (.visit (e.callee?.toList ++ called) p.2 p.1) v.visited k v'.visited)) :
    Completes n stop height (.follow called frames edges) w (edges.foldlM step w) := by
  induction edges generalizing w with
  | nil => exact ⟨w, 0, rfl, ⟨fits, Nat.le_refl _⟩, .done⟩
  | cons e edges ih =>
      obtain ⟨v, first, ⟨fitsV, le⟩, move⟩ := each e (.head _) w fits (Nat.le_refl _)
      obtain ⟨w', k', rest, ⟨fits', le'⟩, performs⟩ := ih fitsV fun e' mem v' fits more =>
        each e' (.tail _ mem) v' fits (le.trans more)
      have run : (e :: edges).foldlM step w = .ok w' := by
        rw [List.foldlM_cons, Except.bind_eq_ok]
        exact ⟨v, first, rest⟩
      rcases move with ⟨same, barred⟩ | ⟨p, k, silent, free, visits⟩
      · exact ⟨w', k', run, ⟨fits', le.trans le'⟩, .skip barred (same ▸ performs)⟩
      · exact ⟨w', k + k', run, ⟨fits', le.trans le'⟩, .cross silent free visits performs⟩

/-- At a rule stop the walk goes back to the caller, whose rule may be called again. -/
theorem back_performs {resume : Nat} {outer : List Nat} {r : State} {v : Walk}
    (new : (q, resume :: outer) ∉ w.visited) (longer : v.visited = (q, resume :: outer) :: w.visited)
    (here : n.states[q]? = some s) (ends : s.isRuleStop = true) (there : n.states[resume]? = some r)
    (known : r.rule < n.ruleStarts.size)
    (rest : Completes n stop height (.visit (called.filter (· ≠ r.rule)) outer resume) v
      (visit n stop ended fuel (called.filter (· ≠ r.rule)) outer resume v)) :
    Completes n stop height (.visit called (resume :: outer) q) w
      (ruleOf n resume >>= fun rule =>
        visit n stop ended fuel (called.filter (· ≠ rule)) outer resume v) := by
  obtain ⟨w', k, run, ⟨fits', le⟩, performs⟩ := rest
  rw [longer] at performs le
  rw [ruleOf_eq_ok there known]
  exact ⟨w', k + 1, run, ⟨fits', Nat.le_of_succ_le le⟩, .back new here ends there performs⟩

/-- A walk ends, whatever edges the network has: what it has entered are distinct places of limited
height, and each visit but the last on a path enters one more. -/
theorem visit_performs (stop : Option Nat) (ended : Symbol) (wf : n.WellFormed)
    (rules_lt : ∀ (q : Nat) (s : State), n.states[q]? = some s → s.rule < n.ruleStarts.size)
    (nested : Nested n depth called frames) (inside : q < n.states.size)
    (fits : Fits n (depth + n.ruleStarts.size) w)
    (enough : (n.states.size + 1) ^ (depth + n.ruleStarts.size + 1) < fuel + w.visited.length) :
    Completes n stop (depth + n.ruleStarts.size) (.visit called frames q) w
      (visit n stop ended fuel called frames q w) := by
  -- With each unit of fuel one more place is visited, and there are not more than the bound.
  induction fuel generalizing called frames q w with
  | zero =>
      have := fits.length_le
      omega
  | succ fuel ih =>
      by_cases new : (q, frames) ∈ w.visited
      · exact ⟨w, 1, visit_visited new, ⟨fits, Nat.le_refl _⟩, .again new⟩
      have inRange : n.InRange (q, frames) :=
        ⟨inside, fun resume mem => (nested.follows resume mem).lt wf⟩
      have fits₁ := fits.enter new inRange nested.length_le
      have ending : Fits n (depth + n.ruleStarts.size)
          { visited := (q, frames) :: w.visited, found := w.found.add ended } :=
        ⟨fits.proper.add ended, fits₁.nodup, fits₁.inRange⟩
      by_cases going : some q = stop ∧ frames = []
      · obtain ⟨here, rfl⟩ := going
        refine ⟨_, 1, ?_, ⟨ending, Nat.le_succ _⟩, .halt new here⟩
        rw [visit, if_neg (mt List.contains_iff_mem.1 new), if_pos ⟨here, rfl⟩]
        rfl
      obtain ⟨s, here⟩ : ∃ s, n.states[q]? = some s := ⟨_, Array.getElem?_eq_getElem inside⟩
      rw [visit_new new going, state_eq_ok.2 here]
      change Completes n stop _ _ w (if s.isRuleStop = true then _ else _)
      have longer : (n.states.size + 1) ^ (depth + n.ruleStarts.size + 1) <
          fuel + ((q, frames) :: w.visited).length := by
        rw [List.length_cons]
        omega
      cases ends : s.isRuleStop with
      | true =>
          rw [if_pos rfl]
          cases frames with
          | nil => exact ⟨_, 1, rfl, ⟨ending, Nat.le_succ _⟩, .finish new here ends⟩
          | cons resume outer =>
              have known := inRange.2 resume (.head _)
              have there : n.states[resume]? = some n.states[resume] := Array.getElem?_eq_getElem known
              exact back_performs new rfl here ends there (rules_lt resume _ there)
                (ih (nested.back _) known fits₁ longer)
      | false =>
          rw [if_neg Bool.false_ne_true]
          have follows : Completes n stop (depth + n.ruleStarts.size)
              (.follow called frames s.transitions) { w with visited := (q, frames) :: w.visited }
              (s.transitions.foldlM (cross n stop ended fuel called frames)
                { w with visited := (q, frames) :: w.visited }) :=
            follow_performs fits₁ fun e mem v fitsV le =>
              cross_performs fitsV (fun p silent => (nested.silent wf here mem silent).1)
                fun p silent free =>
                  ih ((nested.silent wf here mem silent).2 free)
                    (inRange.crossed wf here mem silent).1 fitsV
                    (Nat.lt_of_lt_of_le longer (Nat.add_le_add_left le fuel))
          obtain ⟨w', k, run, ⟨fits', le⟩, performs⟩ := follows
          exact ⟨w', k + 1, run, ⟨fits', Nat.le_of_succ_le le⟩, .enter new going here ends performs⟩

end Lookahead

namespace Network

open Lookahead

variable {n : Network} {q : Nat}

/-- The lookahead walk ends in every network whose states belong to rules, from every state, up to
every stop and below every stack of calls. It enters no place twice and no stack grows by more
frames than there are rules; the number of its visits is bounded. -/
theorem look_visits {kind : GrammarKind} {plan : Blueprint}
    (built : Network.assemble kind plan = .ok n)
    (rules_lt : ∀ (q : Nat) (s : State), n.states[q]? = some s → s.rule < n.ruleStarts.size)
    (inside : q < n.states.size) (stop : Option Nat) (callers : Callers)
    (follows : ∀ follow ∈ callers.frames, n.Follows follow) :
    ∃ w k, visit n stop callers.ended (bound n callers.frames) [] callers.frames q {} = .ok w ∧
      n.look q stop callers = .ok w.found ∧
      (∀ k' seen, Performs n stop (.visit [] callers.frames q) [] k' seen ↔
        k' = k ∧ seen = w.visited) ∧
      k ≤ 1 + (n.edgeCount + 1) *
        (n.states.size + 1) ^ (callers.frames.length + n.ruleStarts.size + 1) ∧
      w.visited.Nodup ∧ ∀ p ∈ w.visited,
        n.InRange p ∧ p.2.length ≤ callers.frames.length + n.ruleStarts.size := by
  have nested : Nested n callers.frames.length [] callers.frames :=
    ⟨.nil, fun _ mem => (nomatch mem), follows, Nat.le_refl _⟩
  have fits : Fits n (callers.frames.length + n.ruleStarts.size) {} :=
    ⟨IntervalSet.isProper_empty, .nil, fun _ mem => nomatch mem⟩
  have enough : (n.states.size + 1) ^ (callers.frames.length + n.ruleStarts.size + 1) <
      bound n callers.frames + ({} : Walk).visited.length := lt_bound n callers.frames
  obtain ⟨w, k, run, ⟨fits', -⟩, performs⟩ := visit_performs stop callers.ended
    (wellFormed_of_assemble built) rules_lt nested inside fits enough
  have looked : n.look q stop callers = .ok w.found := by
    rw [look, run]
    rfl
  have count := performs.count_le
  have few := Nat.mul_le_mul_left (n.edgeCount + 1) fits'.length_le
  refine ⟨w, k, run, looked, fun k' seen => ⟨fun h => h.unique performs, ?_⟩, ?_, fits'.nodup,
    fits'.inRange⟩
  · rintro ⟨rfl, rfl⟩
    exact performs
  · simp only [Task.size, List.length_nil, Nat.mul_zero, Nat.add_zero] at count
    omega

/-- A rule that calls itself before it reads anything, and whose end leads back to its choice. -/
def circular : Blueprint where
  maxToken := 1
  states := [
    { rule := 0, kind := .ruleStart 1 false, transitions := [.plain 2] },
    { rule := 0, kind := .ruleStop },
    { rule := 0, kind := .blockStart .choice 3, transitions := [.plain 4, .plain 5] },
    { rule := 0, kind := .blockEnd, transitions := [.plain 1] },
    { rule := 0, kind := .basic, transitions := [.call 0 0 0 2] },
    { rule := 0, kind := .basic, transitions := [.plain 3] }]
  rules := [⟨0, none⟩]
  decisions := [2]

/-- The network of `circular`. -/
def circularNetwork : Network where
  kind := .parser
  maxToken := 1
  states := #[
    { rule := 0, kind := .ruleStart 1 false, transitions := [.plain 2] },
    { rule := 0, kind := .ruleStop, transitions := [.plain 2] },
    { rule := 0, kind := .blockStart .choice 3, transitions := [.plain 4, .plain 5],
      decision := some 0 },
    { rule := 0, kind := .blockEnd, transitions := [.plain 1], partner := some 2 },
    { rule := 0, kind := .basic, transitions := [.call 0 0 0 2] },
    { rule := 0, kind := .basic, transitions := [.plain 3] }]
  decisions := #[2]
  ruleStarts := #[0]
  ruleStops := #[1]
  ruleTokens := #[]
  modes := #[]
  actions := #[]

/-- From the start of the rule, below a call from itself, the walk ends, and it enters no place with
more than two frames. -/
theorem look_visits_circular : ∃ (w : Walk) (k : Nat),
    circularNetwork.look 0 none (.chain [2]) = .ok w.found ∧
    Performs circularNetwork none (.visit [] [2] 0) [] k w.visited ∧
    ∀ p ∈ w.visited, p.2.length ≤ 2 := by
  have built : Network.assemble .parser circular = .ok circularNetwork := by decide +kernel
  have rules_lt : ∀ (q : Nat) (s : State), circularNetwork.states[q]? = some s →
      s.rule < circularNetwork.ruleStarts.size := by
    have all : ∀ s ∈ circularNetwork.states, s.rule < circularNetwork.ruleStarts.size := by decide
    exact fun q s here => all s (Array.mem_of_getElem? here)
  have follows : ∀ follow ∈ (Callers.chain [2]).frames, circularNetwork.Follows follow := by
    intro follow mem
    obtain rfl := List.mem_singleton.1 mem
    exact ⟨4, _, 0, 0, 0, rfl, .head _⟩
  have inside : 0 < circularNetwork.states.size := by decide
  obtain ⟨w, k, -, looked, performs, -, -, low⟩ :=
    look_visits built rules_lt inside none (.chain [2]) follows
  exact ⟨w, k, looked, (performs k w.visited).2 ⟨rfl, rfl⟩, fun p mem => (low p mem).2⟩

end Network

end AdaptiveLL
