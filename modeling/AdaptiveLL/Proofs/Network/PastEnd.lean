import AdaptiveLL.Proofs.Network.Settling
import Mathlib.Algebra.Order.BigOperators.Group.List
import Mathlib.Algebra.Order.Group.Nat
/-!
At the end of the input. A lexer crosses labels for the end of the input without reading anything,
so what it can do there are the silent moves of another network, which has a plain edge beside each
of these labels. If this network has no silent cycle, one number bounds the silent moves of a lexer
over an input, those at its end included.
-/
namespace AdaptiveLL

open Relation (ReflTransGen)

/-- Whether the edge is crossed at the end of the input. -/
def Transition.readsEnd (t : Transition) : Bool :=
  t.reads Symbol.eof 0 Symbol.lastChar

/-- The edge, and a plain edge beside it if it is crossed at the end of the input. -/
def Transition.pastEnd (t : Transition) : List Transition :=
  if t.readsEnd then [.plain t.target, t] else [t]

namespace Network

/-- The network with plain edges beside the labels for the end of the input. -/
def pastEnd (n : Network) : Network :=
  { n with
    states := n.states.map fun s =>
      { s with transitions := s.transitions.flatMap Transition.pastEnd } }

variable {n : Network} {p p' : Place} {x : Symbol}

theorem states_pastEnd {q : Nat} {s : State} (here : n.states[q]? = some s) :
    n.pastEnd.states[q]? =
      some { s with transitions := s.transitions.flatMap Transition.pastEnd } := by
  rw [pastEnd, Array.getElem?_map, here]
  rfl

theorem Silent.pastEnd (move : n.Silent p p') : n.pastEnd.Silent p p' := by
  cases move with
  | @edge q frames s t _ here inside mem cross =>
      refine .edge (t := t) (states_pastEnd here) inside (List.mem_flatMap.2 ⟨t, mem, ?_⟩) cross
      unfold Transition.pastEnd
      split <;> simp
  | back here stop => exact .back (states_pastEnd here) stop

theorem Reads.pastEnd (move : n.Reads 0 Symbol.lastChar x p p') :
    n.pastEnd.Reads 0 Symbol.lastChar x p p' := by
  cases move with
  | @edge q frames s t here inside mem reads =>
      refine .edge (states_pastEnd here) inside (List.mem_flatMap.2 ⟨t, mem, ?_⟩) reads
      unfold Transition.pastEnd
      split <;> simp

/-- Inside of a rule, reading the end of the input is a silent move. -/
theorem Reads.silent_pastEnd {s : State} (move : n.Reads 0 Symbol.lastChar Symbol.eof p p')
    (here : n.states[p.1]? = some s) (inside : s.isRuleStop = false) : n.pastEnd.Silent p p' := by
  cases move with
  | @edge q frames s' t here' _ mem reads =>
      obtain rfl := Option.some.inj (here.symm.trans here')
      refine .edge (t := .plain t.target) (states_pastEnd here) inside
        (List.mem_flatMap.2 ⟨t, mem, ?_⟩) rfl
      simp [Transition.pastEnd, Transition.readsEnd, reads]

/-- The silent moves at the end of the input are those elsewhere, and the labels for the end. -/
theorem silent_pastEnd (move : n.pastEnd.Silent p p') :
    n.Silent p p' ∨ n.Reads 0 Symbol.lastChar Symbol.eof p p' := by
  have origin {q : Nat} {s : State} (here : n.pastEnd.states[q]? = some s) :
      ∃ s₀, n.states[q]? = some s₀ ∧
        s = { s₀ with transitions := s₀.transitions.flatMap Transition.pastEnd } := by
    rw [pastEnd, Array.getElem?_map, Option.map_eq_some_iff] at here
    obtain ⟨s₀, here₀, eq⟩ := here
    exact ⟨s₀, here₀, eq.symm⟩
  cases move with
  | @edge q frames s t _ here inside mem cross =>
      obtain ⟨s₀, here₀, rfl⟩ := origin here
      obtain ⟨t₀, mem₀, beside⟩ := List.mem_flatMap.1 mem
      unfold Transition.pastEnd at beside
      split at beside
      case isTrue reads =>
          rcases List.mem_pair.1 beside with rfl | rfl
          · obtain rfl := Option.some.inj cross
            exact .inr (.edge (t := t₀) here₀ (fun stop => by cases inside.symm.trans stop) mem₀ reads)
          · exact .inl (.edge here₀ inside mem₀ cross)
      case isFalse =>
          obtain rfl := List.mem_singleton.1 beside
          exact .inl (.edge here₀ inside mem₀ cross)
  | back here stop =>
      obtain ⟨s₀, here₀, rfl⟩ := origin here
      exact .inl (.back here₀ stop)

theorem InRange.silent_pastEnd (wf : n.WellFormed) (h : n.InRange p) (move : n.pastEnd.Silent p p') :
    n.InRange p' := by
  rcases Network.silent_pastEnd move with move | move
  · exact h.silent wf move
  · exact h.reads wf move

/-- The place is an end of a token rule. -/
def IsEnd (n : Network) (p : Place) : Prop :=
  p.2 = [] ∧ ∃ s, n.states[p.1]? = some s ∧ s.isRuleStop = true

/-- Where a thread is kept that has not finished, reading the end of the input is a silent move. -/
theorem Reads.silent_of_keeps (read : n.Reads 0 Symbol.lastChar Symbol.eof p p') (keeps : n.Keeps p)
    (going : ¬ n.IsEnd p) : n.pastEnd.Silent p p' := by
  obtain ⟨s, here, ⟨stop, bottom⟩ | ⟨inside, -⟩⟩ := keeps
  · exact absurd ⟨bottom, s, here, stop⟩ going
  · exact read.silent_pastEnd here inside

/-- Where a lexer can be without reading a character, if it starts in a mode with this start
state. -/
def opening (n : Network) (start : Nat) : Set Place :=
  {p | ∃ s e, n.states[start]? = some s ∧ e ∈ s.transitions ∧
    ReflTransGen n.pastEnd.Silent (e.target, []) p}

/-- Where a symbol and silent moves lead to. -/
def fed (n : Network) (x : Symbol) (places : Set Place) : Set Place :=
  {p | ∃ p₀ ∈ places, ∃ p₁, n.Reads 0 Symbol.lastChar x p₀ p₁ ∧
    ReflTransGen n.pastEnd.Silent p₁ p}

theorem fed_mono {places places' : Set Place} (sub : places ⊆ places') :
    n.fed x places ⊆ n.fed x places' :=
  fun _ ⟨p₀, mem, rest⟩ => ⟨p₀, sub mem, rest⟩

/-- If no thread finishes in the opening of a mode, the end of the input does not lead out of it. -/
theorem fed_eof_subset {start : Nat} {places : Set Place}
    (endless : ∀ p ∈ n.opening start, ¬ n.IsEnd p) (sub : places ⊆ n.opening start)
    (keeps : ∀ p ∈ places, n.Keeps p) : n.fed Symbol.eof places ⊆ n.opening start := by
  rintro p ⟨p₀, mem, p₁, read, path⟩
  obtain ⟨s, e, here, first, before⟩ := sub mem
  have move := read.silent_of_keeps (keeps p₀ mem) (endless p₀ (sub mem))
  exact ⟨s, e, here, first, before.trans (.head move path)⟩

/-- Before and after every symbol of the word, at most so many silent moves follow on each other. -/
def SettlesOver (n : Network) (depth : Nat) (w : List Symbol) (places : Set Place) : Prop :=
  ∀ p ∈ places, ∀ v, v <+: w → ∀ p', n.pastEnd.Run 0 Symbol.lastChar p v p' →
    n.pastEnd.SettlesWithin depth p'

variable {depth : Nat} {w : List Symbol} {places places' : Set Place}

theorem SettlesOver.mono (h : n.SettlesOver depth w places) (sub : places' ⊆ places) :
    n.SettlesOver depth w places' :=
  fun p mem => h p (sub mem)

theorem SettlesOver.reads (h : n.SettlesOver depth (x :: w) places) (mem : p ∈ places)
    (move : n.Reads 0 Symbol.lastChar x p p') : n.pastEnd.SettlesWithin depth p' :=
  h p mem [x] (by simp) p' (.read move.pastEnd (.refl p'))

theorem SettlesOver.fed (h : n.SettlesOver depth (x :: w) places) :
    n.SettlesOver depth w (n.fed x places) := by
  rintro p ⟨p₀, mem, p₁, move, path⟩ v isPrefix p' run
  refine h p₀ mem (x :: v) (List.cons_prefix_cons.2 ⟨rfl, isPrefix⟩) p' (.read move.pastEnd ?_)
  exact run_append.2 ⟨p, run_nil.2 path, run⟩

theorem SettlesWithin.path (h : n.SettlesWithin depth p) (path : ReflTransGen n.Silent p p') :
    n.SettlesWithin depth p' := by
  induction path with
  | refl => exact h
  | tail _ move ih =>
      cases depth with
      | zero => exact absurd move (ih _)
      | succ depth => exact (ih _ move).mono (Nat.le_succ depth)

/-- So much fuel is enough to read the symbols, and the end of the input as often as it is read,
with closures that are no deeper than `depth`. Once the end has been read, each further time that it
is read is a silent move. -/
def Manages (n : Network) (depth fuel : Nat) (w : List Symbol) (places : Set Place) : Prop :=
  (w.length + depth + 1 < fuel ∧ n.SettlesOver depth (w ++ [Symbol.eof]) places) ∨
    (w = [] ∧ (∀ p ∈ places, n.Keeps p ∧ ¬ n.IsEnd p) ∧
      ∃ d < fuel, d ≤ depth ∧ ∀ p ∈ places, n.pastEnd.SettlesWithin d p)

namespace Manages

variable {fuel : Nat}

theorem pos (h : n.Manages depth fuel w places) : 0 < fuel := by
  rcases h with ⟨enough, -⟩ | ⟨-, -, d, enough, -⟩ <;> omega

theorem mono (h : n.Manages depth fuel w places) (sub : places' ⊆ places) :
    n.Manages depth fuel w places' := by
  rcases h with ⟨enough, settles⟩ | ⟨none, going, d, enough, le, settles⟩
  · exact .inl ⟨enough, settles.mono sub⟩
  · exact .inr ⟨none, fun p mem => going p (sub mem), d, enough, le,
      fun p mem => settles p (sub mem)⟩

theorem settles (h : n.Manages depth fuel w places) (mem : p ∈ places) :
    n.pastEnd.SettlesWithin depth p := by
  rcases h with ⟨-, settles⟩ | ⟨-, -, d, -, le, settles⟩
  · exact settles p mem [] List.nil_prefix p (.refl p)
  · exact (settles p mem).mono le

theorem reads (h : n.Manages depth fuel w places) (mem : p ∈ places)
    (read : n.Reads 0 Symbol.lastChar (w.headD Symbol.eof) p p') :
    n.pastEnd.SettlesWithin depth p' := by
  rcases h with ⟨-, settles⟩ | ⟨rfl, going, d, -, le, settles⟩
  · cases w with
    | nil => exact settles.reads mem read
    | cons x w => exact settles.reads mem read
  · have move := read.silent_of_keeps (going p mem).1 (going p mem).2
    cases d with
    | zero => exact absurd move (settles p mem p')
    | succ d => exact (settles p mem p' move).mono (Nat.le_of_succ_le le)

/-- Behind a character. -/
theorem char (h : n.Manages depth (fuel + 1) (x :: w) places) (sub : places' ⊆ n.fed x places) :
    n.Manages depth fuel w places' := by
  rcases h with ⟨enough, settles⟩ | ⟨none, -⟩
  · exact .inl ⟨by simp at enough; omega, settles.fed.mono sub⟩
  · cases none

/-- Behind the end of the input, if no thread has finished there. -/
theorem ended (h : n.Manages depth (fuel + 1) [] places) (sub : places' ⊆ n.fed Symbol.eof places)
    (some : places'.Nonempty) (going : ∀ p ∈ places', n.Keeps p ∧ ¬ n.IsEnd p) :
    n.Manages depth fuel [] places' := by
  rcases h with ⟨enough, settles⟩ | ⟨-, going₀, d, enough, le, settles⟩
  · refine .inr ⟨rfl, going, depth, by simp at enough; omega, Nat.le_refl _, fun p mem => ?_⟩
    exact settles.fed p (sub mem) [] List.prefix_rfl p (.refl p)
  · have settled (p : Place) (mem : p ∈ places') : ∃ d', d = d' + 1 ∧
        n.pastEnd.SettlesWithin d' p := by
      obtain ⟨p₀, mem₀, p₁, read, path⟩ := sub mem
      have move := read.silent_of_keeps (going₀ p₀ mem₀).1 (going₀ p₀ mem₀).2
      cases d with
      | zero => exact absurd move (settles p₀ mem₀ p₁)
      | succ d' => exact ⟨d', rfl, (settles p₀ mem₀ p₁ move).path path⟩
    obtain ⟨p, mem⟩ := some
    obtain ⟨d', rfl, -⟩ := settled p mem
    refine .inr ⟨rfl, going, d', by omega, by omega, fun p mem => ?_⟩
    obtain ⟨_, eq, settles⟩ := settled p mem
    obtain rfl := Nat.succ.inj eq
    exact settles

end Manages

/-- From all places where matches begin, over all the words of a finite set, one number bounds the
silent moves. -/
theorem exists_settlesOver (acyclic : n.pastEnd.NoSilentCycle) (words : List (List Symbol)) :
    ∃ depth, ∀ start ∈ n.modes, ∀ s e, n.states[start]? = some s → e ∈ s.transitions →
      ∀ w ∈ words, n.SettlesOver depth w {(e.target, [])} := by
  let firsts := n.modes.toList.flatMap fun start =>
    ((n.states[start]?.map State.transitions).getD []).map fun e => ((e.target, []) : Place)
  have finite : {p | p ∈ firsts}.Finite := List.finite_toSet firsts
  have each (w : List Symbol) := exists_settlesWithin_of_run acyclic 0 Symbol.lastChar finite w
  choose depth settles using each
  refine ⟨(words.map depth).sum, ?_⟩
  rintro start memStart s e here mem w memW p rfl v isPrefix p' run
  have first : (e.target, []) ∈ firsts := by
    refine List.mem_flatMap.2 ⟨start, Array.mem_toList_iff.2 memStart, ?_⟩
    rw [here]
    exact List.mem_map.2 ⟨e, mem, rfl⟩
  refine (settles w _ first v isPrefix p' run).mono ?_
  exact List.le_sum_of_mem (List.mem_map_of_mem memW)

/-- The places of an opening settle over a word as the first places of the rules do. -/
theorem settlesOver_opening {start : Nat} (settles : ∀ s e, n.states[start]? = some s →
    e ∈ s.transitions → n.SettlesOver depth w {(e.target, [])}) :
    n.SettlesOver depth w (n.opening start) := by
  rintro p ⟨s, e, here, mem, path⟩ v isPrefix p' run
  exact settles s e here mem _ rfl v isPrefix p' (run_append (v := []).2 ⟨p, run_nil.2 path, run⟩)

/-- A search for an end of a rule, over at most `fuel` silent moves in a row. -/
def endlessWithin (n : Network) : Nat → Place → Bool
  | 0, _ => false
  | fuel + 1, p =>
      !(p.2.isEmpty && ((n.states[p.1]?).map State.isRuleStop).getD false) &&
        (n.silentSteps p).all (n.endlessWithin fuel)

theorem not_isEnd_of_endlessWithin {fuel : Nat} (endless : n.endlessWithin fuel p = true)
    (path : ReflTransGen n.Silent p p') : ¬ n.IsEnd p' := by
  induction path using ReflTransGen.head_induction_on generalizing fuel with
  | refl =>
      rintro ⟨bottom, s, here, stop⟩
      cases fuel with
      | zero => cases endless
      | succ fuel => simp [endlessWithin, bottom, here, stop] at endless
  | head move _ ih =>
      cases fuel with
      | zero => cases endless
      | succ fuel =>
          simp only [endlessWithin, Bool.and_eq_true, List.all_eq_true] at endless
          exact ih (endless.2 _ move.mem_silentSteps)

end Network

end AdaptiveLL
