import AdaptiveLL.Grammar.Description
import AdaptiveLL.Proofs.Network.Lookahead
/-!
What loading a network guarantees to those who look ahead in it. Every walk comes to its end,
from every state and below every list of callers, and no state that it asks for is missing
(`Description.build_answers`). One number escapes the checks: the rule that a state says it
belongs to (`Description.build_stray`).
-/
namespace AdaptiveLL

namespace Network

/-- The number is no rule of the network, but that of a state behind a call. -/
def Dangling (n : Network) (rule : Nat) : Prop :=
  n.ruleStarts.size ≤ rule ∧ ∃ (q : Nat) (s : State) (target callee : Nat) (precedence : Int)
    (follow : Nat) (r : State), n.states[q]? = some s ∧
    .call target callee precedence follow ∈ s.transitions ∧ n.states[follow]? = some r ∧
      r.rule = rule

/-- A question has an answer of this kind, unless it has met a state of a rule that the network
does not have. -/
def Answers {α : Type} (n : Network) (good : α → Prop) : Except Fault α → Prop
  | .ok a => good a
  | .error fault => ∃ rule, fault = .noSuchRule rule ∧ n.Dangling rule

namespace Answers

variable {n : Network} {α β : Type} {good : α → Prop} {good' : β → Prop} {x : Except Fault α}
  {f : α → Except Fault β}

theorem bind (h : n.Answers good x) (next : ∀ a, good a → n.Answers good' (f a)) :
    n.Answers good' (x >>= f) := by
  cases x with
  | ok a => exact next a h
  | error fault => exact h

theorem map {g : α → β} (h : n.Answers good x) (next : ∀ a, good a → good' (g a)) :
    n.Answers good' (x.map g) := by
  cases x with
  | ok a => exact next a h
  | error fault => exact h

theorem imp {good' : α → Prop} (h : n.Answers good x) (weaker : ∀ a, good a → good' a) :
    n.Answers good' x := by
  cases x with
  | ok a => exact weaker a h
  | error fault => exact h

theorem foldlM {f : β → α → Except Fault β} {l : List α} {b : β} (start : good' b)
    (step : ∀ a ∈ l, ∀ b, good' b → n.Answers good' (f b a)) :
    n.Answers good' (l.foldlM f b) := by
  induction l generalizing b with
  | nil => exact start
  | cons a l ih =>
      rw [List.foldlM_cons]
      refine bind (step a List.mem_cons_self b start) fun b' good => ?_
      exact ih good fun a' mem => step a' (List.mem_cons_of_mem _ mem)

theorem mapM {l : List α} (each : ∀ a ∈ l, n.Answers (fun _ => True) (f a)) :
    n.Answers (fun _ => True) (l.mapM f) := by
  induction l with
  | nil => exact trivial
  | cons a l ih =>
      rw [List.mapM_cons]
      refine bind (each a List.mem_cons_self) fun b _ => ?_
      exact bind (ih fun a' mem => each a' (List.mem_cons_of_mem _ mem)) fun _ _ => trivial

end Answers

/-- The state follows a call of the network. -/
def Follows (n : Network) (follow : Nat) : Prop :=
  ∃ (q : Nat) (s : State) (target rule : Nat) (precedence : Int), n.states[q]? = some s ∧
    .call target rule precedence follow ∈ s.transitions

variable {n : Network}

theorem Follows.lt (wf : n.WellFormed) {q : Nat} (h : n.Follows q) : q < n.states.size := by
  obtain ⟨_, _, _, _, _, here, call⟩ := h
  exact wf.follow_lt here call

theorem followState_follows {invoking follow : Nat} (h : n.followState? invoking = some follow) :
    n.Follows follow := by
  unfold followState? at h
  split at h
  case h_2 => cases h
  case h_1 target rule precedence follow' first =>
      obtain rfl := Option.some.inj h
      obtain ⟨s, here, head⟩ := Option.bind_eq_some_iff.1 first
      exact ⟨invoking, s, target, rule, precedence, here, List.mem_of_head? head⟩

theorem followStates_follows (n : Network) (invoking : List Nat) :
    ∀ follow ∈ n.followStates invoking, n.Follows follow := by
  induction invoking with
  | nil => exact fun _ mem => nomatch mem
  | cons q outer ih =>
      intro follow mem
      unfold followStates at mem
      split at mem
      case h_1 first found =>
          rcases List.mem_cons.1 mem with rfl | mem
          · exact followState_follows found
          · exact ih follow mem
      case h_2 => cases mem

end Network

namespace Lookahead

open Network

variable {n : Network} {ended : Symbol} {fuel q depth : Nat} {called frames : List Nat} {w : Walk}

/-- What a walk knows of the calls that it is in. Each call beyond the first `depth` has left a
mark; marks stand for distinct rules, so there are few of them. -/
structure Nested (n : Network) (depth : Nat) (called frames : List Nat) : Prop where
  nodup : called.Nodup
  rule_lt : ∀ rule ∈ called, rule < n.ruleStarts.size
  follows : ∀ follow ∈ frames, n.Follows follow
  short : frames.length ≤ depth + called.length

namespace Nested

theorem length_le (h : Nested n depth called frames) :
    frames.length ≤ depth + n.ruleStarts.size := by
  have sub : called ⊆ List.range n.ruleStarts.size := fun rule mem =>
    List.mem_range.2 (h.rule_lt rule mem)
  have few : called.length ≤ n.ruleStarts.size := by
    simpa using (List.subperm_of_subset h.nodup sub).length_le
  have := h.short
  omega

theorem call (h : Nested n depth called frames) {rule follow : Nat} (new : rule ∉ called)
    (lt : rule < n.ruleStarts.size) (follows : n.Follows follow) :
    Nested n depth (rule :: called) (follow :: frames) where
  nodup := h.nodup.cons new
  rule_lt := List.forall_mem_cons.2 ⟨lt, h.rule_lt⟩
  follows := List.forall_mem_cons.2 ⟨follows, h.follows⟩
  short := by
    have := h.short
    simp only [List.length_cons]
    omega

/-- A silent edge either calls a rule of the network or leaves the calls as they are. -/
theorem silent (wf : n.WellFormed) (h : Nested n depth called frames) {s : State} {e : Transition}
    {p : Place} (here : n.states[q]? = some s) (mem : e ∈ s.transitions)
    (silent : e.silently? frames = some p) :
    (∀ rule ∈ e.callee?, rule < n.ruleStarts.size) ∧
      ((¬ ∃ rule ∈ e.callee?, rule ∈ called) → Nested n depth (e.callee?.toList ++ called) p.2) := by
  cases e with
  | call target rule precedence follow =>
      obtain rfl := Option.some.inj silent
      have lt : rule < n.ruleStarts.size :=
        (Array.getElem?_eq_some_iff.1 (wf.call_start here mem)).1
      refine ⟨fun rule' called => Option.some.inj called ▸ lt, fun fresh => ?_⟩
      exact h.call (fun again => fresh ⟨rule, rfl, again⟩) lt
        ⟨q, s, target, rule, precedence, here, mem⟩
  | epsilon | predicate | precedence | action =>
      obtain rfl := Option.some.inj silent
      exact ⟨fun _ called => (nomatch called), fun _ => h⟩
  | atom | range | set | notSet | wildcard => cases silent

/-- On the way back a walk drops one frame and clears one mark at most, though not always that
of the call which ends. -/
theorem back {resume : Nat} (h : Nested n depth called (resume :: frames)) (rule : Nat) :
    Nested n depth (called.filter (· ≠ rule)) frames where
  nodup := h.nodup.filter _
  rule_lt := fun rule' mem => h.rule_lt rule' (List.mem_of_mem_filter mem)
  follows := fun follow mem => h.follows follow (.tail _ mem)
  short := by
    have one : called.length ≤ (called.filter (· ≠ rule)).length + 1 := by
      have erased : called.filter (· ≠ rule) = called.erase rule := by
        rw [h.nodup.erase_eq_filter]
        exact List.filter_congr fun a _ => by rw [bne, beq_eq_decide, decide_not]
      rw [erased, List.length_erase]
      split <;> omega
    have := h.short
    simp only [List.length_cons] at this
    omega

end Nested

/-- The rule of a state behind a call is one of the network, or the walk stops. -/
theorem ruleOf_answers (wf : n.WellFormed) (follows : n.Follows q) :
    n.Answers (fun _ => True) (ruleOf n q) := by
  obtain ⟨r, here⟩ : ∃ r, n.states[q]? = some r :=
    ⟨_, Array.getElem?_eq_getElem (follows.lt wf)⟩
  rw [ruleOf, state_eq_ok.2 here]
  by_cases lt : r.rule < n.ruleStarts.size
  · exact (congrArg (n.Answers _) (if_pos lt)).mpr trivial
  · obtain ⟨q', s, target, callee, precedence, there, call⟩ := follows
    refine (congrArg (n.Answers _) (if_neg lt)).mpr ⟨r.rule, rfl, Nat.le_of_not_lt lt, ?_⟩
    exact ⟨q', s, target, callee, precedence, q, r, there, call, here, rfl⟩

/-- A walk comes to its end: the places that it can still visit are fewer than the steps that it
may take, and it has never more frames than the network has rules, beyond those at the start. -/
theorem visit_answers (wf : n.WellFormed) (nested : Nested n depth called frames)
    (inside : q < n.states.size) (fits : Fits n (depth + n.ruleStarts.size) w)
    (enough : (n.states.size + 1) ^ (depth + n.ruleStarts.size + 1) < fuel + w.visited.length) :
    n.Answers (fun w' => Fits n (depth + n.ruleStarts.size) w' ∧
      w.visited.length ≤ w'.visited.length) (visit n none ended fuel called frames q w) := by
  induction fuel generalizing called frames q w with
  | zero =>
      have := fits.length_le
      omega
  | succ fuel ih =>
      by_cases new : (q, frames) ∈ w.visited
      · rw [visit_visited new]
        exact ⟨fits, Nat.le_refl _⟩
      have inRange : n.InRange (q, frames) :=
        ⟨inside, fun resume mem => (nested.follows resume mem).lt wf⟩
      have fits₁ := fits.enter new inRange nested.length_le
      have longer : w.visited.length < ((q, frames) :: w.visited).length := Nat.lt_succ_self _
      rw [visit_new new (by simp), state_eq_ok.2 (Array.getElem?_eq_getElem inside)]
      generalize hs : n.states[q] = s
      have here : n.states[q]? = some s := hs ▸ Array.getElem?_eq_getElem inside
      cases stop : s.isRuleStop with
      | true =>
          refine (congrArg (n.Answers _) (if_pos stop)).mpr ?_
          cases frames with
          | nil =>
              exact ⟨⟨fits.proper.add ended, fits₁.nodup, fits₁.inRange⟩, longer.le⟩
          | cons resume outer =>
              refine (ruleOf_answers wf (nested.follows resume (.head _))).bind fun rule _ => ?_
              refine (ih (nested.back rule) (inRange.2 resume (.head _)) fits₁ ?_).imp ?_
              · dsimp only
                omega
              · exact fun w' ⟨fits', le⟩ => ⟨fits', longer.le.trans le⟩
      | false =>
          refine (congrArg (n.Answers _) (if_neg (by simp [stop]))).mpr ?_
          have crossed : n.Answers (fun v : Walk => Fits n (depth + n.ruleStarts.size) v ∧
              ((q, frames) :: w.visited).length ≤ v.visited.length)
              (s.transitions.foldlM (cross n none ended fuel called frames)
                { w with visited := (q, frames) :: w.visited }) := by
            refine Answers.foldlM ⟨fits₁, Nat.le_refl _⟩ fun e mem v ⟨fitsV, le⟩ => ?_
            cases silent : e.silently? frames with
            | none =>
                obtain ⟨found, run, proper, -⟩ :=
                  cross_reads n none ended fuel called fitsV.proper silent
                rw [run]
                exact ⟨⟨proper, fitsV.nodup, fitsV.inRange⟩, le⟩
            | some p =>
                obtain ⟨rule_lt, nested'⟩ := nested.silent wf here mem silent
                rw [cross_silent silent rule_lt]
                split
                case isTrue => exact ⟨fitsV, le⟩
                case isFalse fresh =>
                    have inside' : p.1 < n.states.size :=
                      (inRange.silent wf (.edge here stop mem silent)).1
                    refine (ih (nested' fresh) inside' fitsV (by omega)).imp ?_
                    exact fun w' ⟨fits', le'⟩ => ⟨fits', le.trans le'⟩
          exact crossed.imp fun w' ⟨fits', le⟩ => ⟨fits', longer.le.trans le⟩

end Lookahead

namespace Network

open Lookahead

variable {n : Network} {q : Nat}

/-- A lookahead set is found below every list of follow states. -/
theorem look_answers (wf : n.WellFormed) (inside : q < n.states.size) (callers : Callers)
    (follows : ∀ follow ∈ callers.frames, n.Follows follow) :
    n.Answers (fun _ => True) (n.look q none callers) := by
  have nested : Nested n callers.frames.length [] callers.frames :=
    ⟨.nil, fun _ mem => (nomatch mem), follows, Nat.le_refl _⟩
  have fits : Fits n (callers.frames.length + n.ruleStarts.size) {} :=
    ⟨IntervalSet.isProper_empty, .nil, fun _ mem => nomatch mem⟩
  exact (visit_answers wf nested inside fits (lt_bound n callers.frames)).map fun _ _ => trivial

theorem nextTokens_answers (wf : n.WellFormed) (inside : q < n.states.size) :
    n.Answers (fun _ => True) (n.nextTokens q) :=
  look_answers wf inside .unknown fun _ mem => nomatch mem

theorem nextTokensInContext_answers (wf : n.WellFormed) (inside : q < n.states.size)
    (invoking : List Nat) : n.Answers (fun _ => True) (n.nextTokensInContext q invoking) :=
  look_answers wf inside (.chain _) (followStates_follows n invoking)

theorem climb_answers (wf : n.WellFormed) (found : IntervalSet) (invoking : List Nat) :
    n.Answers (fun _ => True) (n.climb found invoking) := by
  induction invoking generalizing found with
  | nil => exact trivial
  | cons q outer ih =>
      unfold climb
      split
      case h_1 => exact trivial
      case h_2 follow next =>
          refine (nextTokens_answers wf ((followState_follows next).lt wf)).bind fun set _ => ?_
          dsimp only
          split
          · exact ih _
          · exact trivial

theorem expectedTokens_answers (wf : n.WellFormed) (inside : q < n.states.size)
    (invoking : List Nat) : n.Answers (fun _ => True) (n.expectedTokens q invoking) := by
  refine (nextTokens_answers wf inside).bind fun set _ => ?_
  split
  · exact climb_answers wf _ invoking
  · exact trivial

theorem decisionLookahead_answers (wf : n.WellFormed) (inside : q < n.states.size) :
    n.Answers (fun _ => True) (n.decisionLookahead q) := by
  have here := Array.getElem?_eq_getElem inside
  rw [decisionLookahead, state_eq_ok.2 here]
  exact Answers.mapM fun t mem => look_answers wf (wf.target_lt here mem) .unknown
    fun _ mem => nomatch mem

/-- Who starts at a state of the network comes to states and rules of it alone. -/
structure Entire (n : Network) : Prop extends n.WellFormed where
  decision_lt : ∀ q ∈ n.decisions, q < n.states.size
  known : ∀ rule, ¬ n.Dangling rule

theorem state_ne_error (inside : q < n.states.size) (fault : Fault) : n.state q ≠ .error fault := by
  rw [state_eq_ok.2 (Array.getElem?_eq_getElem inside)]
  nofun

/-- Where no rule is missing, every question has an answer. -/
theorem Entire.exists_ok {α : Type} {good : α → Prop} {x : Except Fault α} (h : n.Entire)
    (answers : n.Answers good x) : ∃ a, x = .ok a ∧ good a := by
  cases x with
  | ok a => exact ⟨a, rfl, answers⟩
  | error fault =>
      obtain ⟨rule, -, dangling⟩ := answers
      exact absurd dangling (h.known rule)

end Network

open Network

variable {d : Description} {g : Grammar} {q : Nat}

theorem Description.wellFormed_of_build (built : d.build = .ok g) : g.network.WellFormed := by
  unfold Description.build at built
  split at built
  case h_1 network assembled =>
      obtain rfl := Except.ok.inj built
      exact wellFormed_of_assemble assembled
  case h_2 => cases built

/-- In every network that loads, from every state and below every list of callers, lookahead has
an answer, unless it goes on behind a call in a state of a rule that the network does not have. -/
theorem Description.build_answers (built : d.build = .ok g) (inside : q < g.network.states.size)
    (invoking : List Nat) :
    g.network.Answers (fun _ => True) (g.network.nextTokens q) ∧
      g.network.Answers (fun _ => True) (g.network.nextTokensInContext q invoking) ∧
      g.network.Answers (fun _ => True) (g.network.expectedTokens q invoking) ∧
      g.network.Answers (fun _ => True) (g.network.decisionLookahead q) := by
  have wf := wellFormed_of_build built
  exact ⟨nextTokens_answers wf inside, nextTokensInContext_answers wf inside invoking,
    expectedTokens_answers wf inside invoking, decisionLookahead_answers wf inside⟩

/-- Two rules, the second of them empty, in the description of their network. -/
def Description.twice : Description :=
  ⟨⟨.parser, {}, Network.twice⟩, []⟩

theorem Description.build_answers_twice : Description.twice.build = .ok ⟨twiceNetwork, {}⟩ ∧
    2 < twiceNetwork.states.size ∧
    twiceNetwork.Answers (fun _ => True) (twiceNetwork.nextTokens 2) ∧
    twiceNetwork.Answers (fun _ => True) (twiceNetwork.nextTokensInContext 2 [1, 7]) ∧
    twiceNetwork.Answers (fun _ => True) (twiceNetwork.expectedTokens 2 [1, 7]) ∧
    twiceNetwork.Answers (fun _ => True) (twiceNetwork.decisionLookahead 2) := by
  have built : Description.twice.build = .ok ⟨twiceNetwork, {}⟩ := by decide +kernel
  exact ⟨built, by decide, Description.build_answers built (by decide) [1, 7]⟩

/-- A rule that calls an empty rule and goes on in a state which claims to belong to rule 7. -/
def Description.stray : Description where
  grammar := {
    kind := .parser
    names := { grammar := "g", rules := ["s", "a"] }
    plan := {
      maxToken := 2
      states := [
        { rule := 0, kind := .ruleStart 3 false, transitions := [.plain 1] },
        { rule := 0, kind := .basic, transitions := [.call 4 1 0 2] },
        { rule := 7, kind := .basic, transitions := [.atom 3 2] },
        { rule := 0, kind := .ruleStop },
        { rule := 1, kind := .ruleStart 5 false, transitions := [.plain 5] },
        { rule := 1, kind := .ruleStop }]
      rules := [⟨0, none⟩, ⟨4, none⟩] } }

/-- The description of a state in a rule that does not exist loads, and lookahead fails there. -/
theorem Description.build_stray : ∃ g, Description.stray.build = .ok g ∧
    1 < g.network.states.size ∧ g.network.nextTokens 1 = .error (.noSuchRule 7) := by
  have loads : (match Description.stray.build with
      | .ok g => decide (1 < g.network.states.size ∧
          g.network.nextTokens 1 = .error (.noSuchRule 7))
      | .error _ => false) = true := by decide +kernel
  split at loads
  case h_1 g built => exact ⟨g, built, of_decide_eq_true loads⟩
  case h_2 => cases loads

end AdaptiveLL
