import AdaptiveLL.Proofs.IntervalSet.Separated
import AdaptiveLL.Proofs.Network.Answers
/-!
Two ways to the symbols that can come next below a chain of calls. One walk over the whole chain
finds them at once; the other looks ahead inside one rule at a time and climbs out of the rules
whose ends it can reach. Both find what the moves of the network foresee, as the same set, if no
rule is called twice on the way to the next symbol (`Network.expectedTokens_eq_inContext`).

The condition cannot be dropped (`Network.expectedTokens_relay`).
-/
namespace AdaptiveLL

namespace Lookahead

open IntervalSet

variable {n : Network} {stop : Option Nat} {ended : Symbol} {fuel q : Nat} {called frames : List Nat}
  {w w' : Walk} {e : Transition}

/-- An edge that reads keeps the set in canonical form. -/
theorem cross_separated (reads : e.silently? frames = none) (separated : w.found.IsSeparated)
    (h : cross n stop ended fuel called frames w e = .ok w') : w'.found.IsSeparated := by
  cases e with
  | wildcard target =>
      obtain rfl := Except.ok.inj h
      exact separated.addRange _ _
  | atom | range | set | notSet =>
      obtain rfl := Except.ok.inj h
      exact separated.addSet _
  | epsilon | call | predicate | precedence | action => cases reads

/-- What a walk finds is in canonical form. -/
theorem visit_separated (h : visit n none ended fuel called frames q w = .ok w')
    (separated : w.found.IsSeparated) : w'.found.IsSeparated := by
  induction fuel generalizing called frames q w w' with
  | zero => cases h
  | succ fuel ih =>
      by_cases new : (q, frames) ∈ w.visited
      · rw [visit_visited new] at h
        obtain rfl := Except.ok.inj h
        exact separated
      rw [visit_new new (by simp)] at h
      obtain ⟨s, -, h⟩ := Except.bind_eq_ok.1 h
      cases stop : s.isRuleStop with
      | true =>
          rw [if_pos stop] at h
          cases frames with
          | nil =>
              obtain rfl := Except.ok.inj h
              exact separated.add ended
          | cons resume outer =>
              obtain ⟨rule, -, h⟩ := Except.bind_eq_ok.1 h
              exact ih h separated
      | false =>
          rw [if_neg (by simp [stop])] at h
          refine Except.foldlM_keeps (fun v : Walk => v.found.IsSeparated) h separated ?_
          intro e _ v v' crossed separated
          cases silent : e.silently? frames with
          | none => exact cross_separated silent separated crossed
          | some p =>
              rcases cross_followed silent crossed with rfl | ⟨called', visited⟩
              · exact separated
              · exact ih visited separated

end Lookahead

namespace Network

open Lookahead

variable {n : Network} {q f : Nat} {frames below fs rules rules' invoking : List Nat}
  {start p p' : Place} {x : Symbol} {set : IntervalSet}

theorem look_separated {callers : Callers} (h : n.look q none callers = .ok set) :
    set.IsSeparated := by
  simp only [look] at h
  cases run : visit n none callers.ended (bound n callers.frames) [] callers.frames q {} with
  | error fault => simp [run, Except.map] at h
  | ok w =>
      rw [run] at h
      obtain rfl := Except.ok.inj h
      exact visit_separated run IntervalSet.isSeparated_empty

section Paths

/-- A move that takes a frame from below goes back from the end of the innermost rule. -/
theorem Silent.leave {q' : Nat} {frames' : List Nat}
    (move : n.Silent (q, frames ++ below) (q', frames')) (low : frames'.length < below.length) :
    frames = [] ∧ below = q' :: frames' ∧ ∃ s, n.states[q]? = some s ∧ s.isRuleStop = true := by
  generalize hp : ((q, frames ++ below) : Place) = p at move
  generalize hp' : ((q', frames') : Place) = p' at move
  cases move with
  | edge here inside mem cross =>
      obtain ⟨rfl, rfl⟩ := Prod.mk.inj hp
      rw [Transition.silently?_eq_map, Option.map_eq_some_iff] at cross
      obtain ⟨p₀, -, rfl⟩ := cross
      obtain ⟨-, rfl⟩ := Prod.mk.inj hp'
      rw [List.length_append, List.length_append] at low
      omega
  | back here stop =>
      obtain ⟨rfl, eq⟩ := Prod.mk.inj hp
      obtain ⟨rfl, rfl⟩ := Prod.mk.inj hp'
      cases frames with
      | nil => exact ⟨rfl, eq, _, here, stop⟩
      | cons f above =>
          obtain ⟨-, rfl⟩ := List.cons.inj eq
          rw [List.append_eq, List.length_append] at low
          omega

/-- Silent moves do not depend on the frames below those that they use. -/
theorem path_append (path : Relation.ReflTransGen n.Silent p p') (below : List Nat) :
    Relation.ReflTransGen n.Silent (p.1, p.2 ++ below) (p'.1, p'.2 ++ below) := by
  induction path with
  | refl => exact .refl
  | tail _ move ih => exact ih.tail (move.append below)

/-- Silent moves either leave the frames below as they are, or reach the end of the innermost
rule and go on from the first of those frames. -/
theorem path_split (frames : List Nat)
    (path : Relation.ReflTransGen n.Silent (q, frames ++ below) p) :
    (∃ above, p.2 = above ++ below ∧ Relation.ReflTransGen n.Silent (q, frames) (p.1, above)) ∨
      ∃ resume outer, below = resume :: outer ∧ n.CanEnd (q, frames) ∧
        Relation.ReflTransGen n.Silent (resume, outer) p := by
  induction path with
  | refl => exact .inl ⟨frames, rfl, .refl⟩
  | @tail p p' _ move ih =>
      rcases ih with ⟨above, eq, path⟩ | ⟨resume, outer, eq, ends, path⟩
      case inr => exact .inr ⟨resume, outer, eq, ends, path.tail move⟩
      have move : n.Silent (p.1, above ++ below) (p'.1, p'.2) := eq ▸ move
      by_cases high : below.length ≤ p'.2.length
      case pos =>
          obtain ⟨above', eq', move'⟩ := move.strip high
          exact .inl ⟨above', eq', path.tail move'⟩
      case neg =>
          obtain ⟨rfl, rfl, s, here, stop⟩ := move.leave (Nat.lt_of_not_le high)
          exact .inr ⟨p'.1, p'.2, rfl, ⟨p.1, s, path, here, stop⟩, .refl⟩

/-- The end of a rule goes on from the first frame below. -/
theorem CanEnd.resume (ends : n.CanEnd (q, [])) (f : Nat) (fs : List Nat) :
    Relation.ReflTransGen n.Silent (q, f :: fs) (f, fs) := by
  obtain ⟨q', s, path, here, stop⟩ := ends
  exact (path_append path (f :: fs)).tail (.back here stop)

/-- What comes next below a frame comes inside the rule, or behind its end. -/
theorem foresees_cons : n.Foresees (q, f :: fs) x ↔
    n.Foresees (q, []) x ∨ n.CanEnd (q, []) ∧ n.Foresees (f, fs) x := by
  constructor
  · rintro ⟨q', frames, s, e, path, here, inside, mem, reads⟩
    rcases path_split [] path with ⟨above, -, path⟩ | ⟨_, _, eq, ends, path⟩
    · exact .inl ⟨q', above, s, e, path, here, inside, mem, reads⟩
    · obtain ⟨rfl, rfl⟩ := List.cons.inj eq
      exact .inr ⟨ends, q', frames, s, e, path, here, inside, mem, reads⟩
  · rintro (⟨q', frames, s, e, path, here, inside, mem, reads⟩ |
      ⟨ends, q', frames, s, e, path, here, inside, mem, reads⟩)
    · exact ⟨q', frames ++ f :: fs, s, e, path_append path _, here, inside, mem, reads⟩
    · exact ⟨q', frames, s, e, (ends.resume f fs).trans path, here, inside, mem, reads⟩

theorem Foresees.deeper (h : n.Foresees (q, []) x) : n.Foresees (q, frames) x := by
  cases frames with
  | nil => exact h
  | cons f fs => exact foresees_cons.2 (.inl h)

theorem canEnd_cons : n.CanEnd (q, f :: fs) ↔ n.CanEnd (q, []) ∧ n.CanEnd (f, fs) := by
  constructor
  · rintro ⟨q', s, path, here, stop⟩
    rcases path_split [] path with ⟨above, eq, -⟩ | ⟨_, _, eq, ends, path⟩
    · exact absurd eq.symm (List.append_ne_nil_of_right_ne_nil _ (List.cons_ne_nil _ _))
    · obtain ⟨rfl, rfl⟩ := List.cons.inj eq
      exact ⟨ends, q', s, path, here, stop⟩
  · rintro ⟨ends, q', s, path, here, stop⟩
    exact ⟨q', s, (ends.resume f fs).trans path, here, stop⟩

/-- What comes next once the rules above the frames have ended: behind the last of them only the
end of the input. -/
def ComesBehind (n : Network) (x : Symbol) : List Nat → Prop
  | [] => x = Symbol.eof
  | f :: fs => Comes n Symbol.eof (f, fs) x

/-- What comes next comes inside the innermost rule, or behind it if that can end. -/
theorem comes_iff : Comes n Symbol.eof (q, frames) x ↔
    n.Foresees (q, []) x ∨ n.CanEnd (q, []) ∧ n.ComesBehind x frames := by
  cases frames with
  | nil => exact or_congr_right and_comm
  | cons f fs =>
      simp only [Comes, ComesBehind, foresees_cons, canEnd_cons]
      tauto

end Paths

section Calls

theorem Calls.trans (h : n.Calls start rules p) (h' : n.Calls p rules' p') :
    n.Calls start (rules' ++ rules) p' := by
  induction h' with
  | refl => exact h
  | edge _ here inside mem cross ih =>
      rw [List.append_assoc]
      exact ih.edge here inside mem cross
  | back _ here stop ih => exact ih.back here stop

theorem Calls.append (h : n.Calls start rules p) (below : List Nat) :
    n.Calls (start.1, start.2 ++ below) rules (p.1, p.2 ++ below) := by
  induction h with
  | refl => exact .refl
  | edge _ here inside mem cross ih =>
      exact ih.edge here inside mem (Transition.silently?_append cross below)
  | back _ here stop ih => exact ih.back here stop

theorem exists_calls (path : Relation.ReflTransGen n.Silent p p') :
    ∃ rules, n.Calls p rules p' := by
  induction path with
  | refl => exact ⟨[], .refl⟩
  | tail _ move ih =>
      obtain ⟨rules, calls⟩ := ih
      cases move with
      | edge here inside mem cross => exact ⟨_, calls.edge here inside mem cross⟩
      | back here stop => exact ⟨rules, calls.back here stop⟩

/-- Without the frames below there are fewer moves. -/
theorem CallsOnce.above (once : n.CallsOnce (q, frames)) : n.CallsOnce (q, []) :=
  fun rules _ calls => once rules _ (calls.append frames)

/-- Silent moves leave fewer moves. -/
theorem CallsOnce.along (once : n.CallsOnce p) (path : Relation.ReflTransGen n.Silent p p') :
    n.CallsOnce p' := by
  intro rules' p'' calls'
  obtain ⟨rules, calls⟩ := exists_calls path
  exact (List.nodup_append.1 (once _ _ (calls.trans calls'))).1

end Calls

section Climbing

variable (wf : n.WellFormed)
  (rules_lt : ∀ (q : Nat) (s : State), n.states[q]? = some s → s.rule < n.ruleStarts.size)

include wf rules_lt

/-- The tokens of a rule in canonical form, if nothing reads the symbol that stands for its end. -/
theorem nextTokens_split (inside : q < n.states.size) (once : n.CallsOnce (q, []))
    (unread : ¬ n.Foresees (q, []) Symbol.epsilon) :
    ∃ set, n.nextTokens q = .ok set ∧ set.IsSeparated ∧
      (set.contains Symbol.epsilon = true ↔ n.CanEnd (q, [])) ∧
      ∀ x, x ∈ set.remove Symbol.epsilon ↔ n.Foresees (q, []) x := by
  obtain ⟨set, looked, members⟩ :=
    look_exact .unknown wf rules_lt ⟨inside, fun _ mem => nomatch mem⟩ once
  refine ⟨set, looked, look_separated looked, ?_, fun x => ?_⟩
  · rw [(look_separated looked).contains_iff]
    exact (members _).trans ((or_iff_right unread).trans (and_iff_right rfl))
  · rw [IntervalSet.mem_remove, members]
    constructor
    · rintro ⟨comes, other⟩
      exact comes.resolve_right fun last => other last.1
    · intro foreseen
      exact ⟨.inl foreseen, fun last => unread (last ▸ foreseen)⟩

/-- The climb adds what comes behind the rules that it leaves, as long as their ends can be
reached. -/
theorem climb_exact {found : IntervalSet} (separated : found.IsSeparated)
    (unmarked : ¬ Symbol.epsilon ∈ found)
    (once : ∀ f fs, n.followStates invoking = f :: fs → n.CallsOnce (f, fs))
    (unread : ∀ f fs, n.followStates invoking = f :: fs → ¬ n.Foresees (f, fs) Symbol.epsilon) :
    ∃ set, n.climb found invoking = .ok set ∧ set.IsSeparated ∧
      ∀ x, x ∈ set ↔ x ∈ found ∨ n.ComesBehind x (n.followStates invoking) := by
  have finish {found : IntervalSet} (separated : found.IsSeparated) :
      ∃ set, Except.ok (found.add Symbol.eof) = (Except.ok set : Except Fault IntervalSet) ∧
        set.IsSeparated ∧ ∀ x, x ∈ set ↔ x ∈ found ∨ n.ComesBehind x [] :=
    ⟨_, rfl, separated.add _, fun x => IntervalSet.mem_add separated.proper⟩
  induction invoking generalizing found with
  | nil => exact finish separated
  | cons q outer ih =>
      rw [climb]
      unfold followStates at once unread ⊢
      cases next : n.followState? q with
      | none => exact finish separated
      | some f =>
          simp only [next] at once unread ⊢
          have once := once f _ rfl
          have unread := unread f _ rfl
          obtain ⟨following, answer, -, marked, members⟩ := nextTokens_split wf rules_lt
            ((followState_follows next).lt wf) once.above (mt Foresees.deeper unread)
          have added x : x ∈ (found.addSet following).remove Symbol.epsilon ↔
              x ∈ found ∨ n.Foresees (f, []) x := by
            rw [← members, IntervalSet.mem_remove, IntervalSet.mem_addSet separated.proper,
              IntervalSet.mem_remove, or_and_right]
            exact or_congr_left (and_iff_left_of_imp fun mem same => unmarked (same ▸ mem))
          have separated' := (separated.addSet following).remove Symbol.epsilon
          have behind x : n.ComesBehind x (f :: n.followStates outer) ↔
              n.Foresees (f, []) x ∨ n.CanEnd (f, []) ∧ n.ComesBehind x (n.followStates outer) :=
            comes_iff
          rw [answer]
          change ∃ set, (if following.contains Symbol.epsilon = true then _ else _) = _ ∧ _
          by_cases ends : n.CanEnd (f, [])
          · have isEnd : following.contains Symbol.epsilon = true := marked.2 ends
            rw [if_pos isEnd]
            obtain ⟨set, climbed, isSeparated, all⟩ := ih separated'
              (fun mem => (IntervalSet.mem_remove.1 mem).2 rfl)
              (fun f' fs' outer => once.along (outer ▸ ends.resume f' fs'))
              (fun f' fs' outer later =>
                unread (outer ▸ foresees_cons.2 (.inr ⟨ends, later⟩)))
            refine ⟨set, climbed, isSeparated, fun x => ?_⟩
            rw [all, added, behind, and_iff_right ends, or_assoc]
          · have noEnd : ¬ following.contains Symbol.epsilon = true := mt marked.1 ends
            rw [if_neg noEnd]
            refine ⟨_, rfl, separated', fun x => ?_⟩
            rw [added, behind]
            exact or_congr_right (or_iff_left fun last => ends last.1).symm

end Climbing

/-- The climb and the walk over the whole chain find the same set: what can come next below the
calls, and the end of the input if the outermost rule can end. -/
theorem expectedTokens_eq_inContext {kind : GrammarKind} {plan : Blueprint}
    (built : Network.assemble kind plan = .ok n)
    (rules_lt : ∀ (q : Nat) (s : State), n.states[q]? = some s → s.rule < n.ruleStarts.size)
    (inside : q < n.states.size) (once : n.CallsOnce (q, n.followStates invoking))
    (unread : ¬ n.Foresees (q, n.followStates invoking) Symbol.epsilon) :
    ∃ set, n.expectedTokens q invoking = .ok set ∧ n.nextTokensInContext q invoking = .ok set ∧
      ∀ x, x ∈ set ↔ n.Foresees (q, n.followStates invoking) x ∨
        x = Symbol.eof ∧ n.CanEnd (q, n.followStates invoking) := by
  have wf := wellFormed_of_assemble built
  have inRange : n.InRange (q, n.followStates invoking) :=
    ⟨inside, fun f mem => (followStates_follows n invoking f mem).lt wf⟩
  obtain ⟨set, looked, members⟩ := look_exact (.chain _) wf rules_lt inRange once
  suffices ∃ climbed, n.expectedTokens q invoking = .ok climbed ∧ climbed.IsSeparated ∧
      ∀ x, x ∈ climbed ↔ Comes n Symbol.eof (q, n.followStates invoking) x by
    obtain ⟨climbed, answer, separated, members'⟩ := this
    obtain rfl : climbed = set := separated.ext (look_separated looked) fun x =>
      (members' x).trans (members x).symm
    exact ⟨climbed, answer, looked, members⟩
  obtain ⟨following, answer, separated, marked, own⟩ :=
    nextTokens_split wf rules_lt inside once.above (mt Foresees.deeper unread)
  rw [expectedTokens, answer]
  change ∃ climbed, (if following.contains Symbol.epsilon = true then _ else _) = _ ∧ _
  by_cases ends : n.CanEnd (q, [])
  · have isEnd : following.contains Symbol.epsilon = true := marked.2 ends
    rw [if_pos isEnd]
    obtain ⟨climbed, climbs, isSeparated, all⟩ := climb_exact wf rules_lt
      (separated.remove _) (fun mem => (IntervalSet.mem_remove.1 mem).2 rfl)
      (fun f fs (frames : n.followStates invoking = f :: fs) =>
        once.along (frames ▸ ends.resume f fs))
      (fun f fs frames later => unread (frames ▸ foresees_cons.2 (.inr ⟨ends, later⟩)))
    refine ⟨climbed, climbs, isSeparated, fun x => ?_⟩
    rw [all, own, comes_iff, and_iff_right ends]
  · have noEnd : ¬ following.contains Symbol.epsilon = true := mt marked.1 ends
    rw [if_neg noEnd]
    refine ⟨following, rfl, separated, fun x => ?_⟩
    rw [comes_iff, or_iff_left fun last => ends last.1, ← own, IntervalSet.mem_remove]
    refine ⟨fun mem => ⟨mem, ?_⟩, And.left⟩
    rintro rfl
    exact noEnd (separated.contains_iff.2 mem)

/-- A rule that calls a second one and then an empty rule, which the second one calls at its end.
A token follows. -/
def relay : Blueprint where
  maxToken := 1
  states := [
    { rule := 0, kind := .ruleStart 4 false, transitions := [.plain 1] },
    { rule := 0, kind := .basic, transitions := [.call 5 1 0 2] },
    { rule := 0, kind := .basic, transitions := [.call 8 2 0 3] },
    { rule := 0, kind := .basic, transitions := [.atom 4 1] },
    { rule := 0, kind := .ruleStop },
    { rule := 1, kind := .ruleStart 7 false, transitions := [.plain 6] },
    { rule := 1, kind := .basic, transitions := [.call 8 2 0 7] },
    { rule := 1, kind := .ruleStop },
    { rule := 2, kind := .ruleStart 9 false, transitions := [.plain 9] },
    { rule := 2, kind := .ruleStop }]
  rules := [⟨0, none⟩, ⟨5, none⟩, ⟨8, none⟩]

/-- The network of `relay`, where the rules go back to their calls. -/
def relayNetwork : Network where
  kind := .parser
  maxToken := 1
  states := #[
    { rule := 0, kind := .ruleStart 4 false, transitions := [.plain 1] },
    { rule := 0, kind := .basic, transitions := [.call 5 1 0 2] },
    { rule := 0, kind := .basic, transitions := [.call 8 2 0 3] },
    { rule := 0, kind := .basic, transitions := [.atom 4 1] },
    { rule := 0, kind := .ruleStop },
    { rule := 1, kind := .ruleStart 7 false, transitions := [.plain 6] },
    { rule := 1, kind := .basic, transitions := [.call 8 2 0 7] },
    { rule := 1, kind := .ruleStop, transitions := [.epsilon 2 none] },
    { rule := 2, kind := .ruleStart 9 false, transitions := [.plain 9] },
    { rule := 2, kind := .ruleStop, transitions := [.epsilon 3 none, .epsilon 7 none] }]
  decisions := #[]
  ruleStarts := #[0, 5, 8]
  ruleStops := #[4, 7, 9]
  ruleTokens := #[]
  modes := #[]
  actions := #[]

/-- Inside the empty rule, below the calls of the two others, the answers agree: the climb leaves
two rules, calls the empty one again and comes to the token. -/
theorem expectedTokens_eq_inContext_relay : relayNetwork.followStates [6, 1] = [7, 2] ∧
    ∃ set, relayNetwork.expectedTokens 8 [6, 1] = .ok set ∧
      relayNetwork.nextTokensInContext 8 [6, 1] = .ok set ∧
      ∀ x, x ∈ set ↔ relayNetwork.Foresees (8, [7, 2]) x ∨
        x = Symbol.eof ∧ relayNetwork.CanEnd (8, [7, 2]) := by
  have built : Network.assemble .parser relay = .ok relayNetwork := by decide +kernel
  have rules_lt : ∀ (q : Nat) (s : State), relayNetwork.states[q]? = some s →
      s.rule < relayNetwork.ruleStarts.size := by
    have all : ∀ s ∈ relayNetwork.states, s.rule < relayNetwork.ruleStarts.size := by decide
    exact fun q s here => all s (Array.mem_of_getElem? here)
  have once : relayNetwork.callsOnceWithin 8 [] (8, relayNetwork.followStates [6, 1]) = true := by
    decide
  have unread : ¬ relayNetwork.Foresees (8, relayNetwork.followStates [6, 1]) Symbol.epsilon := by
    rintro ⟨q, frames, s, e, -, here, -, mem, bears⟩
    have none : ∀ s ∈ relayNetwork.states, ∀ e ∈ s.transitions,
        e.bears Symbol.epsilon Symbol.firstToken relayNetwork.maxToken = false := by decide
    exact Bool.false_ne_true ((none s (Array.mem_of_getElem? here) e mem).symm.trans bears)
  exact ⟨rfl, expectedTokens_eq_inContext built rules_lt (by decide)
    (callsOnce_of_within once) unread⟩

/-- Where the second rule is about to call the empty one, the climb finds the token, and the walk
over the whole chain finds nothing: it does not call the empty rule again. -/
theorem expectedTokens_relay : Network.assemble .parser relay = .ok relayNetwork ∧
    (∀ s ∈ relayNetwork.states, s.rule < relayNetwork.ruleStarts.size) ∧
    relayNetwork.expectedTokens 6 [1] = .ok (.singleton 1) ∧
    relayNetwork.nextTokensInContext 6 [1] = .ok ∅ ∧
    relayNetwork.Foresees (6, relayNetwork.followStates [1]) 1 := by
  refine ⟨by decide +kernel, by decide, by decide +kernel, by decide +kernel,
    3, [], _, .atom 4 1, ?_, rfl, rfl, .head _, rfl⟩
  refine .head (.edge (t := .call 8 2 0 7) rfl rfl (.head _) rfl) ?_
  refine .head (.edge (t := .plain 9) rfl rfl (.head _) rfl) (.head (.back rfl rfl) ?_)
  refine .head (.back rfl rfl) (.head (.edge (t := .call 8 2 0 3) rfl rfl (.head _) rfl) ?_)
  exact .head (.edge (t := .plain 9) rfl rfl (.head _) rfl) (.single (.back rfl rfl))

end Network

end AdaptiveLL
