import AdaptiveLL.Lexer.Scanner
import AdaptiveLL.Proofs.Network.Settling
/-!
Lexer threads with their stacks written out. The functions here compute what closures and
reading steps of a scanner compute, without a stack graph and without a scanner state: which
threads a thread becomes by silent moves, which threads a list of threads becomes by reading a
symbol, and with which threads a match begins.
-/
namespace AdaptiveLL

namespace Option

/-- What holds after every step of a fold holds of its result. -/
theorem foldlM_some {α β : Type} {f : β → α → Option β} {P : List α → β → Prop}
    (xs : List α) {b r : β} (start : P [] b)
    (step : ∀ before x behind b b', xs = before ++ x :: behind → P before b → f b x = some b' →
      P (before ++ [x]) b')
    (h : xs.foldlM f b = some r) : P xs r := by
  suffices ∀ before behind b, xs = before ++ behind → P before b → behind.foldlM f b = some r →
      P xs r from this [] xs b rfl start h
  intro before behind
  induction behind generalizing before with
  | nil =>
      intro b all holds h
      obtain rfl := Option.some.inj h
      simpa [all] using holds
  | cons x behind ih =>
      intro b all holds h
      rw [List.foldlM_cons] at h
      obtain ⟨b', first, rest⟩ := Option.bind_eq_some_iff.1 h
      exact ih (before ++ [x]) b' (by simpa using all) (step before x behind b b' all holds first) rest

/-- A fold has a result if each step has one. -/
theorem foldlM_isSome {α β : Type} {f : β → α → Option β} {xs : List α}
    (step : ∀ x ∈ xs, ∀ b, (f b x).isSome) (b : β) : (xs.foldlM f b).isSome := by
  induction xs generalizing b with
  | nil => rfl
  | cons x xs ih =>
      obtain ⟨b', first⟩ := Option.isSome_iff_exists.1 (step x (.head _) b)
      rw [List.foldlM_cons, Option.bind_eq_bind, first]
      exact ih (fun y mem => step y (.tail _ mem)) b'

/-- A fold in which each step puts what is new behind what is there. -/
theorem foldlM_append {α β γ : Type} {R : α → List β → Prop} {xs : List α} {news : List (List β)}
    {f : γ × List β → α → Option (γ × List β)} {c : γ} {before : List β}
    (step : ∀ before a new, R a new → (before ++ new).Nodup →
      f (c, before) a = some (c, before ++ new))
    (each : List.Forall₂ R xs news) (apart : (before ++ news.flatten).Nodup) :
    xs.foldlM f (c, before) = some (c, before ++ news.flatten) := by
  induction each generalizing before with
  | nil => simp
  | cons first _ ih =>
      rw [List.flatten_cons, ← List.append_assoc] at apart ⊢
      rw [List.foldlM_cons, step _ _ _ first (List.nodup_append.1 apart).1]
      exact ih apart

theorem bind_isSome {α β : Type} {o : Option α} {f : α → Option β} (first : o.isSome)
    (rest : ∀ a, o = some a → (f a).isSome) : (o.bind f).isSome := by
  obtain ⟨a, rfl⟩ := Option.isSome_iff_exists.1 first
  exact rest a rfl

end Option

/-- A thread of a lexer without predicates. -/
structure Thread where
  state : Nat
  /-- The number of the edge of the mode that it was started for, from 1 on. -/
  alt : Nat
  /-- The follow states of the open calls, innermost first. -/
  frames : List Nat := []
  actions : Option ActionList := none
  passedNonGreedy : Bool := false
  deriving DecidableEq

/-- Whether the state is a decision of a non-greedy loop. -/
def Network.isNonGreedy (n : Network) (q : Nat) : Bool :=
  (n.states[q]?.map fun s => s.isDecision && s.nonGreedy).getD false

namespace Thread

def place (t : Thread) : Place :=
  (t.state, t.frames)

/-- The thread in another state. -/
def move (n : Network) (t : Thread) (q : Nat) : Thread :=
  { t with state := q, passedNonGreedy := t.passedNonGreedy || n.isNonGreedy q }

/-- The thread back in the caller. -/
def back (n : Network) (t : Thread) (resume : Nat) (frames : List Nat) : Thread :=
  { t.move n resume with frames }

/-- Cross an edge without reading, if that is possible. -/
def cross (n : Network) (crossEof : Bool) (t : Thread) (e : Transition) : Option Thread :=
  match e with
  | .call target _ _ follow => some { t.move n target with frames := follow :: t.frames }
  | .action target _ index _ =>
      match t.frames.isEmpty, index.bind (n.actions[·]?) with
      | true, some action => some { t.move n target with actions := some (.push t.actions action) }
      | _, _ => some (t.move n target)
  | .epsilon target _ => some (t.move n target)
  | .atom target _ | .range target .. | .set target _ =>
      if crossEof && e.reads Symbol.eof 0 Symbol.lastChar then some (t.move n target) else none
  | .notSet .. | .wildcard _ | .precedence .. | .predicate .. => none

/-- The threads that a thread becomes by silent moves, in the order of their priority, and
whether the rule has finished. -/
def settle (n : Network) (crossEof : Bool) : Nat → Bool → Thread → Option (Bool × List Thread)
  | 0, _, _ => none
  | fuel + 1, accepted, t => do
      let s ← n.states[t.state]?
      if s.isRuleStop then
        match t.frames with
        | [] => some (true, [t])
        | resume :: frames => settle n crossEof fuel accepted (t.back n resume frames)
      else
        let own := if !s.isEpsilonOnly && (!accepted || !t.passedNonGreedy) then [t] else []
        s.transitions.foldlM
          (fun (accepted, settled) e =>
            match t.cross n crossEof e with
            | none => some (accepted, settled)
            | some t' => do
                let (accepted, new) ← settle n crossEof fuel accepted t'
                some (accepted, settled ++ new))
          (accepted, own)

/-- Put a thread behind others, unless it is one of them. -/
def enlist (ts : List Thread) (t : Thread) : List Thread :=
  if t ∈ ts then ts else ts ++ [t]

/-- The threads at the start of a match, one rule after the other. -/
def starts (n : Network) (fuel start : Nat) : Option (List Thread) := do
  let s ← n.states[start]?
  s.transitions.zipIdx.foldlM
    (fun ts (e, i) => do
      let (_, new) ← settle n false fuel false { state := e.target, alt := i + 1 }
      some (new.foldl enlist ts))
    []

/-- What the thread becomes when it reads a symbol, at a distance from the start of the match. -/
def read (n : Network) (offset : Nat) (t : Thread) (e : Transition) : Thread :=
  { t.move n e.target with actions := t.actions.map (·.pin offset) }

/-- Let one thread read a symbol. Its edges are tried in order until the rule finishes. -/
def advance (n : Network) (fuel offset : Nat) (x : Symbol) (t : Thread) (accepted : Bool) :
    List Transition → Option (Bool × List Thread)
  | [] => some (false, [])
  | e :: rest =>
      if e.reads x 0 Symbol.lastChar then do
        let (finished, new) ← settle n (x == Symbol.eof) fuel accepted (t.read n offset e)
        if finished then some (true, new)
        else
          let (finished, others) ← advance n fuel offset x t accepted rest
          some (finished, new ++ others)
      else advance n fuel offset x t accepted rest

/-- Let threads read a symbol, in the order of their priority. -/
def reach (n : Network) (fuel offset : Nat) (ts : List Thread) (x : Symbol) :
    Option (List Thread) := do
  let (_, reached) ← ts.foldlM
    (fun (finishedAlt, reached) t => do
      let accepted := finishedAlt == some t.alt
      if accepted && t.passedNonGreedy then some (finishedAlt, reached)
      else
        let s ← n.states[t.state]?
        let (finished, new) ← t.advance n fuel offset x accepted s.transitions
        some (if finished then some t.alt else finishedAlt, new.foldl enlist reached))
    ((none, []) : Option Nat × List Thread)
  some reached

theorem settle_missing {n : Network} {crossEof accepted : Bool} {fuel : Nat} {t : Thread}
    (missing : n.states[t.state]? = none) : t.settle n crossEof fuel accepted = none := by
  cases fuel <;> simp [settle, missing]

theorem mem_foldl_enlist {t : Thread} {new : List Thread} (ts : List Thread) :
    t ∈ new.foldl enlist ts ↔ t ∈ ts ∨ t ∈ new := by
  induction new generalizing ts with
  | nil => simp
  | cons t' new ih =>
      rw [List.foldl_cons, ih, List.mem_cons, enlist]
      split
      case isTrue old =>
          constructor
          · rintro (h | h)
            · exact .inl h
            · exact .inr (.inr h)
          · rintro (h | rfl | h)
            · exact .inl h
            · exact .inl old
            · exact .inr h
      case isFalse => rw [List.mem_append, List.mem_singleton, or_assoc]

section Induction

variable {n : Network} {P : Thread → Prop} {t : Thread} {ts ts' new : List Thread}
  {fuel offset : Nat} {x : Symbol} {crossEof accepted b : Bool}

/-- What crossing an edge and going back to a caller keep, a closure keeps. It ends with threads
that can read or have finished. -/
theorem settle_all
    (back : ∀ (t : Thread) (s : State) (resume : Nat) (frames : List Nat),
      n.states[t.state]? = some s → s.isRuleStop = true → t.frames = resume :: frames → P t →
        P (t.back n resume frames))
    (cross : ∀ (t t' : Thread) (s : State) (e : Transition), n.states[t.state]? = some s →
      s.isRuleStop = false → e ∈ s.transitions → t.cross n crossEof e = some t' → P t → P t')
    (start : P t) (h : t.settle n crossEof fuel accepted = some (b, new)) :
    ∀ t' ∈ new, P t' ∧ n.Keeps t'.place := by
  induction fuel generalizing t accepted b new with
  | zero => cases h
  | succ fuel ih =>
      rw [settle] at h
      obtain ⟨s, here, h⟩ := Option.bind_eq_some_iff.1 h
      cases stop : s.isRuleStop with
      | true =>
          rw [if_pos stop] at h
          cases called : t.frames with
          | nil =>
              rw [called] at h
              obtain ⟨-, rfl⟩ := Prod.mk.inj (Option.some.inj h)
              exact List.forall_mem_singleton.2 ⟨start, s, here, .inl ⟨stop, called⟩⟩
          | cons resume frames =>
              rw [called] at h
              exact ih (back t s resume frames here stop called start) h
      | false =>
          rw [if_neg (by simp [stop])] at h
          refine Option.foldlM_some (P := fun _ (b : Bool × List Thread) =>
            ∀ t' ∈ b.2, P t' ∧ n.Keeps t'.place) s.transitions ?_ ?_ h
          · intro t' mem
            split at mem
            case isTrue kept =>
                obtain rfl := List.mem_singleton.1 mem
                exact ⟨start, s, here, .inr ⟨stop, by simp_all⟩⟩
            case isFalse => cases mem
          · rintro before e behind ⟨a, found⟩ ⟨a', found'⟩ all holds step
            cases crossed : t.cross n crossEof e with
            | none =>
                rw [crossed] at step
                obtain ⟨rfl, rfl⟩ := Prod.mk.inj (Option.some.inj step)
                exact holds
            | some t' =>
                rw [crossed] at step
                obtain ⟨⟨a'', new'⟩, settled, step⟩ := Option.bind_eq_some_iff.1 step
                obtain ⟨rfl, rfl⟩ := Prod.mk.inj (Option.some.inj step)
                have edge : P t' := cross t t' s e here stop (by simp [all]) crossed start
                exact List.forall_mem_append.2 ⟨holds, ih edge settled⟩

/-- What holds after closures over a thread that has read holds of all that it becomes. -/
theorem advance_all {es : List Transition}
    (next : ∀ e ∈ es, e.reads x 0 Symbol.lastChar = true → ∀ accepted b new,
      (t.read n offset e).settle n (x == Symbol.eof) fuel accepted = some (b, new) →
        ∀ t' ∈ new, P t')
    (h : t.advance n fuel offset x accepted es = some (b, new)) : ∀ t' ∈ new, P t' := by
  induction es generalizing b new with
  | nil =>
      obtain ⟨-, rfl⟩ := Prod.mk.inj (Option.some.inj h)
      exact fun _ mem => nomatch mem
  | cons e es ih =>
      have ih {b : Bool} {others : List Thread} := @ih others b fun e' mem => next e' (.tail _ mem)
      rw [advance] at h
      cases reads : e.reads x 0 Symbol.lastChar with
      | false =>
          rw [reads, if_neg Bool.false_ne_true] at h
          exact ih h
      | true =>
          rw [reads, if_pos rfl] at h
          obtain ⟨⟨finished, found⟩, settled, h⟩ := Option.bind_eq_some_iff.1 h
          have holds := next e (.head _) reads _ _ _ settled
          cases finished with
          | true =>
              obtain ⟨-, rfl⟩ := Prod.mk.inj (Option.some.inj h)
              exact holds
          | false =>
              obtain ⟨⟨b', others⟩, rest, h⟩ := Option.bind_eq_some_iff.1 h
              obtain ⟨-, rfl⟩ := Prod.mk.inj (Option.some.inj h)
              exact List.forall_mem_append.2 ⟨holds, ih rest⟩

/-- What holds after closures over threads that have read holds of all that they become. -/
theorem reach_all
    (next : ∀ t ∈ ts, ∀ s e, n.states[t.state]? = some s → e ∈ s.transitions →
      e.reads x 0 Symbol.lastChar = true → ∀ accepted b new,
      (t.read n offset e).settle n (x == Symbol.eof) fuel accepted = some (b, new) →
        ∀ t' ∈ new, P t')
    (h : reach n fuel offset ts x = some ts') : ∀ t' ∈ ts', P t' := by
  rw [reach] at h
  obtain ⟨⟨_, reached⟩, folded, h⟩ := Option.bind_eq_some_iff.1 h
  obtain rfl := Option.some.inj h
  refine Option.foldlM_some (P := fun _ (b : Option Nat × List Thread) => ∀ t' ∈ b.2, P t') ts
    (fun _ mem => by cases mem) ?_ folded
  rintro before t behind ⟨finishedAlt, found⟩ ⟨_, found'⟩ all holds step
  have mem : t ∈ ts := by simp [all]
  dsimp only at step
  split at step
  case isTrue passed =>
      obtain ⟨-, rfl⟩ := Prod.mk.inj (Option.some.inj step)
      exact holds
  case isFalse going =>
      obtain ⟨s, here, step⟩ := Option.bind_eq_some_iff.1 step
      obtain ⟨⟨b, new⟩, advanced, step⟩ := Option.bind_eq_some_iff.1 step
      obtain ⟨-, rfl⟩ := Prod.mk.inj (Option.some.inj step)
      have fresh := advance_all (fun e memE reads => next t mem s e here memE reads) advanced
      exact fun t' mem' => ((mem_foldl_enlist found).1 mem').elim (holds t') (fresh t')

/-- What holds after closures over the first states of the rules holds at the start of a match. -/
theorem starts_all_of_mem {start : Nat}
    (next : ∀ (s : State) (e : Transition), n.states[start]? = some s → e ∈ s.transitions →
      ∀ (i : Nat) b new, settle n false fuel false { state := e.target, alt := i + 1 } = some (b, new) →
        ∀ t' ∈ new, P t')
    (h : starts n fuel start = some ts) : ∀ t' ∈ ts, P t' := by
  rw [starts] at h
  obtain ⟨s, here, h⟩ := Option.bind_eq_some_iff.1 h
  refine Option.foldlM_some (P := fun _ (ts : List Thread) => ∀ t' ∈ ts, P t') _
    (fun _ mem => by cases mem) ?_ h
  rintro before ⟨e, i⟩ behind ts ts' all holds step
  have edge : (e, i) ∈ s.transitions.zipIdx := by simp [all]
  have mem : e ∈ s.transitions := List.mem_of_getElem? (List.mem_zipIdx_iff_getElem?.1 edge)
  obtain ⟨⟨b, new⟩, settled, step⟩ := Option.bind_eq_some_iff.1 step
  obtain rfl := Option.some.inj step
  exact fun t' there => ((mem_foldl_enlist ts).1 there).elim (holds t') (next s e here mem i b new settled t')

theorem starts_all {start : Nat}
    (next : ∀ (e : Transition) (i : Nat) b new,
      settle n false fuel false { state := e.target, alt := i + 1 } = some (b, new) →
        ∀ t' ∈ new, P t')
    (h : starts n fuel start = some ts) : ∀ t' ∈ ts, P t' :=
  starts_all_of_mem (fun _ e _ _ => next e) h

end Induction

end Thread

end AdaptiveLL
