import AdaptiveLL.Network.Ebnf
import AdaptiveLL.Proofs.Network.Pushdown
import AdaptiveLL.Proofs.Network.WellFormed
import Mathlib
/-!
The words that fragments of a network spell. A word that leads to the end of a rule is taken apart
along the edges that it crosses, where a call takes a word of the rule that is called; and words
are put together to runs of the network. Both are shown for each way in which fragments are
joined: in a row, side by side, and in loops.
-/
namespace AdaptiveLL

open scoped Computability

namespace Network

/-- The words of one symbol with a property. -/
def letters (p : Symbol → Prop) : Language Symbol :=
  {w | ∃ x, p x ∧ w = [x]}

variable (n : Network) (low high : Symbol)

/-- The words that are spelled by the runs from the start of a rule to its stop. A run goes into
the rules that are called and comes back from each to where the call is followed. -/
def language (rule : Nat) : Language Symbol :=
  {w | ∃ start stop, n.ruleStarts[rule]? = some start ∧ n.ruleStops[rule]? = some stop ∧
    n.Run low high (start, []) w (stop, [])}

/-- A word leads from a state to the end of a rule, by so many edges. For a call, one word leads
to the end of the rule that is called and one goes on behind it. -/
inductive Ends : Nat → Nat → List Symbol → Prop where
  | stop {q : Nat} {s : State} (here : n.states[q]? = some s) (stop : s.isRuleStop = true) :
      Ends 0 q []
  | silent {q q' k : Nat} {s : State} {t : Transition} {w : List Symbol}
      (here : n.states[q]? = some s) (inside : s.isRuleStop = false) (mem : t ∈ s.transitions)
      (cross : t.silently? [] = some (q', [])) (rest : Ends k q' w) : Ends (k + 1) q w
  | call {q target rule follow k k' : Nat} {level : Int} {s : State} {v w : List Symbol}
      (here : n.states[q]? = some s) (inside : s.isRuleStop = false)
      (mem : .call target rule level follow ∈ s.transitions) (inner : Ends k target v)
      (rest : Ends k' follow w) : Ends (k + k' + 1) q (v ++ w)
  | read {q k : Nat} {s : State} {t : Transition} {x : Symbol} {w : List Symbol}
      (here : n.states[q]? = some s) (inside : s.isRuleStop = false) (mem : t ∈ s.transitions)
      (reads : t.reads x low high = true) (rest : Ends k t.target w) : Ends (k + 1) q (x :: w)

/-- An edge is the first of those by which a word leads to the end of a rule. -/
inductive Via : Transition → Nat → List Symbol → Prop where
  | silent {t : Transition} {q k : Nat} {w : List Symbol} (cross : t.silently? [] = some (q, []))
      (rest : n.Ends low high k q w) : Via t (k + 1) w
  | call {target rule follow k k' : Nat} {level : Int} {v w : List Symbol}
      (inner : n.Ends low high k target v) (rest : n.Ends low high k' follow w) :
      Via (.call target rule level follow) (k + k' + 1) (v ++ w)
  | read {t : Transition} {k : Nat} {x : Symbol} {w : List Symbol}
      (reads : t.reads x low high = true) (rest : n.Ends low high k t.target w) :
      Via t (k + 1) (x :: w)

/-- A word leads to the end of a rule, and on from there to the end of each rule that was left
for a call. -/
def Unwinds : List Nat → Nat → List Symbol → Prop
  | [], q, w => ∃ k, n.Ends low high k q w
  | resume :: frames, q, w =>
      ∃ k u v, w = u ++ v ∧ n.Ends low high k q u ∧ Unwinds frames resume v

/-- Nothing is read at the stop of a rule. -/
def StopsSilent : Prop :=
  ∀ (q : Nat) (s : State) (t : Transition), n.states[q]? = some s → s.isRuleStop = true →
    t ∈ s.transitions → ∀ x low high, t.reads x low high = false

/-- The state is no stop and has just these edges. -/
def LeavesBy (q : Nat) (ts : List Transition) : Prop :=
  ∃ s, n.states[q]? = some s ∧ s.isRuleStop = false ∧ s.transitions = ts

/-- The words that lead from a state to the end of its rule by fewer than `m` edges are among
`K`. -/
def EndsIn (m q : Nat) (K : Language Symbol) : Prop :=
  ∀ k < m, ∀ w, n.Ends low high k q w → w ∈ K

/-- The words of each rule that need fewer than `m` edges are among those given for it. -/
def CallsIn (m : Nat) (L : Nat → Language Symbol) : Prop :=
  ∀ rule start, n.ruleStarts[rule]? = some start → n.EndsIn low high m start (L rule)

/-- A fragment spells a language, which depends on those of the rules. Each of its words leads
through the fragment; and what leads from the entry to the end of the rule is such a word, followed
by one that leads there from the exit. -/
structure Spells (f : Fragment) (X : (Nat → Language Symbol) → Language Symbol) : Prop where
  complete : ∀ w ∈ X (n.language low high), ∀ frames,
    n.Run low high (f.entry, frames) w (f.exit, frames)
  sound : ∀ L m K, n.CallsIn low high m L → n.EndsIn low high m f.exit K →
    n.EndsIn low high m f.entry (X L * K)

variable {n low high} {q q' m m' : Nat} {w v : List Symbol} {K K' : Language Symbol}
  {t : Transition} {ts : List Transition}

/-! ### Runs -/

theorem Run.trans {p p' p'' : Place} (first : n.Run low high p v p')
    (second : n.Run low high p' w p'') : n.Run low high p (v ++ w) p'' :=
  run_append.2 ⟨p', first, second⟩

/-- A run goes on in the same way above other frames. -/
theorem Run.append {p p' : Place} (run : n.Run low high p w p') (silent : n.StopsSilent)
    (below : List Nat) : n.Run low high (p.1, p.2 ++ below) w (p'.1, p'.2 ++ below) := by
  induction run with
  | refl => exact .refl _
  | silent first _ ih => exact .silent (first.append below) ih
  | read first _ ih =>
      obtain ⟨here, -, mem, reads⟩ := first
      refine .read (.edge here (fun stop => ?_) mem reads) ih
      exact absurd (silent _ _ _ here stop mem _ _ _) (Bool.eq_false_iff.not_left.2 reads)

theorem Unwinds.extend {frames : List Nat} (u : List Symbol)
    (step : ∀ k v, n.Ends low high k q' v → ∃ k', n.Ends low high k' q (u ++ v))
    (rest : n.Unwinds low high frames q' w) : n.Unwinds low high frames q (u ++ w) := by
  cases frames with
  | nil =>
      obtain ⟨k, ends⟩ := rest
      exact step k w ends
  | cons resume frames =>
      obtain ⟨k, v, w, rfl, ends, rest⟩ := rest
      obtain ⟨k', ends⟩ := step k v ends
      exact ⟨k', u ++ v, w, (List.append_assoc ..).symm, ends, rest⟩

/-- A run to the stop of a rule, taken apart at the ends of the rules that are called. -/
theorem unwinds_of_run {p : Place} {stop : Nat} {s : State} (silent : n.StopsSilent)
    (here : n.states[stop]? = some s) (stops : s.isRuleStop = true)
    (run : n.Run low high p w (stop, [])) : n.Unwinds low high p.2 p.1 w := by
  generalize last : (stop, []) = p' at run
  induction run with
  | refl =>
      subst last
      exact ⟨0, .stop here stops⟩
  | silent first _ ih =>
      have rest := ih last
      cases first with
      | @edge q frames s t _ here inside mem cross =>
          cases t with
          | call target rule level follow =>
              cases cross
              obtain ⟨k, u, v, rfl, inner, rest⟩ := rest
              exact rest.extend u fun k' v ends => ⟨_, .call here inside mem inner ends⟩
          | epsilon | predicate | precedence | action =>
              cases cross
              exact rest.extend [] fun k v ends => ⟨_, .silent here inside mem rfl ends⟩
          | atom | range | set | notSet | wildcard => cases cross
      | back here stop => exact ⟨0, [], _, rfl, .stop here stop, rest⟩
  | @read p _ _ x w first _ ih =>
      have rest := ih last
      obtain ⟨here, -, mem, reads⟩ := first
      cases stop : State.isRuleStop _ with
      | true => simp [silent _ _ _ here stop mem x low high] at reads
      | false => exact rest.extend [x] fun k v ends => ⟨_, .read here stop mem reads ends⟩

/-! ### Words to the end of a rule -/

/-- What leads to the end of a rule begins with an edge of its state. -/
theorem exists_via {k : Nat} (leaves : n.LeavesBy q ts) (ends : n.Ends low high k q w) :
    ∃ t ∈ ts, n.Via low high t k w := by
  obtain ⟨s, here, inside, rfl⟩ := leaves
  cases ends with
  | stop here' stop =>
      obtain rfl := Option.some.inj (here.symm.trans here')
      cases stop.symm.trans inside
  | silent here' _ mem cross rest =>
      obtain rfl := Option.some.inj (here.symm.trans here')
      exact ⟨_, mem, .silent cross rest⟩
  | call here' _ mem inner rest =>
      obtain rfl := Option.some.inj (here.symm.trans here')
      exact ⟨_, mem, .call inner rest⟩
  | read here' _ mem reads rest =>
      obtain rfl := Option.some.inj (here.symm.trans here')
      exact ⟨_, mem, .read reads rest⟩

namespace EndsIn

theorem mono (h : n.EndsIn low high m q K) (le : m' ≤ m) (sub : K ≤ K') :
    n.EndsIn low high m' q K' :=
  fun k lt w ends => sub (h k (Nat.lt_of_lt_of_le lt le) w ends)

theorem zero (q : Nat) (K : Language Symbol) : n.EndsIn low high 0 q K :=
  fun _ lt => absurd lt (Nat.not_lt_zero _)

/-- Nothing is left to read at the stop of a rule. -/
theorem stop {s : State} (here : n.states[q]? = some s) (stop : s.isRuleStop = true) :
    n.EndsIn low high m q 1 := by
  intro k _ w ends
  cases ends with
  | stop => rfl
  | silent here' inside | call here' inside | read here' inside =>
      obtain rfl := Option.some.inj (here.symm.trans here')
      cases stop.symm.trans inside

/-- A state all of whose edges are plain is as far from the end as one edge and what is behind
it. -/
theorem plains (targets : List Nat) (leaves : n.LeavesBy q (targets.map .plain))
    (each : ∀ target ∈ targets, n.EndsIn low high m target K) :
    n.EndsIn low high (m + 1) q K := by
  intro k lt w ends
  obtain ⟨t, mem, via⟩ := exists_via leaves ends
  obtain ⟨target, listed, rfl⟩ := List.mem_map.1 mem
  cases via with
  | silent cross rest =>
      cases cross
      exact each target listed _ (Nat.lt_of_succ_lt_succ lt) w rest
  | read reads => cases reads

theorem plain (leaves : n.LeavesBy q [.plain q']) (behind : n.EndsIn low high m q' K) :
    n.EndsIn low high m q K :=
  (plains [q'] leaves (by simpa using behind)).mono (Nat.le_succ m) le_rfl

/-- An edge that reads. -/
theorem reads (leaves : n.LeavesBy q [t]) (reading : t.isEpsilon = false)
    (behind : n.EndsIn low high m t.target K) :
    n.EndsIn low high m q (letters (fun x => t.reads x low high = true) * K) := by
  intro k lt w ends
  obtain ⟨t', mem, via⟩ := exists_via leaves ends
  obtain rfl := List.mem_singleton.1 mem
  cases via with
  | silent cross => cases t' <;> cases reading <;> cases cross
  | call => cases reading
  | @read _ k x w reads rest =>
      exact Language.append_mem_mul (a := [x]) ⟨x, reads, rfl⟩ (behind k (by omega) w rest)

/-- An edge that is crossed without reading and calls nothing. -/
theorem silent (leaves : n.LeavesBy q [t]) (cross : t.silently? [] = some (q', []))
    (behind : n.EndsIn low high m q' K) : n.EndsIn low high m q K := by
  intro k lt w ends
  obtain ⟨t', mem, via⟩ := exists_via leaves ends
  obtain rfl := List.mem_singleton.1 mem
  cases via with
  | silent cross' rest =>
      cases cross.symm.trans cross'
      exact behind _ (Nat.lt_of_succ_lt lt) w rest
  | call => cases cross
  | read reads => cases t' <;> cases cross <;> cases reads

/-- A call, where the words of the rule that is called are known. -/
theorem call {target rule follow : Nat} {level : Int} {X : Language Symbol}
    (leaves : n.LeavesBy q [.call target rule level follow])
    (inner : n.EndsIn low high m target X) (behind : n.EndsIn low high m follow K) :
    n.EndsIn low high m q (X * K) := by
  intro k lt w ends
  obtain ⟨t', mem, via⟩ := exists_via leaves ends
  obtain rfl := List.mem_singleton.1 mem
  cases via with
  | silent cross => cases cross
  | call first rest =>
      exact Language.append_mem_mul (inner _ (by omega) _ first) (behind _ (by omega) _ rest)
  | read reads => cases reads

end EndsIn

theorem CallsIn.mono {L : Nat → Language Symbol} (h : n.CallsIn low high m L) (le : m' ≤ m) :
    n.CallsIn low high m' L :=
  fun rule start here => (h rule start here).mono le le_rfl

/-! ### Runs along edges -/

namespace LeavesBy

variable {frames : List Nat} {p : Place}

theorem run_silent (leaves : n.LeavesBy q ts) (mem : t ∈ ts)
    (cross : t.silently? frames = some p) : n.Run low high (q, frames) [] p := by
  obtain ⟨s, here, inside, rfl⟩ := leaves
  exact .silent (.edge here inside mem cross) (.refl _)

theorem run_plain {targets : List Nat} (leaves : n.LeavesBy q (targets.map .plain))
    (mem : q' ∈ targets) : n.Run low high (q, frames) [] (q', frames) :=
  leaves.run_silent (List.mem_map_of_mem mem) rfl

theorem run_link (leaves : n.LeavesBy q [.plain q']) : n.Run low high (q, frames) [] (q', frames) :=
  leaves.run_silent (.head _) rfl

theorem run_read {x : Symbol} (leaves : n.LeavesBy q ts) (mem : t ∈ ts)
    (reads : t.reads x low high = true) : n.Run low high (q, frames) [x] (t.target, frames) := by
  obtain ⟨s, here, inside, rfl⟩ := leaves
  exact .read (.edge here (fun stop => by simp [stop] at inside) mem reads) (.refl _)

end LeavesBy

/-! ### Fragments -/

namespace Spells

variable {f g : Fragment} {X Y : (Nat → Language Symbol) → Language Symbol} {start stop : Nat}

/-- A fragment of one edge that reads. -/
theorem reads (leaves : n.LeavesBy q [t]) (reading : t.isEpsilon = false) :
    n.Spells low high ⟨q, t.target⟩ fun _ => letters fun x => t.reads x low high = true where
  complete := by
    rintro _ ⟨x, reads, rfl⟩ frames
    exact leaves.run_read (.head _) reads
  sound _ _ _ _ behind := .reads leaves reading behind

/-- A fragment of one edge that reads nothing. -/
theorem silent (leaves : n.LeavesBy q [t]) (cross : t.silently? [] = some (q', [])) :
    n.Spells low high ⟨q, q'⟩ fun _ => 1 where
  complete := by
    rintro _ rfl frames
    refine leaves.run_silent (.head _) ?_
    rw [Transition.silently?_eq_map, cross]
    rfl
  sound _ _ K _ behind := by
    rw [one_mul]
    exact .silent leaves cross behind

/-- A fragment that calls a rule. -/
theorem call {target rule : Nat} {level : Int} (silent : n.StopsSilent) (known : n.WellFormed)
    (start : n.ruleStarts[rule]? = some target)
    (leaves : n.LeavesBy q [.call target rule level q']) :
    n.Spells low high ⟨q, q'⟩ fun L => L rule where
  complete := by
    rintro w ⟨start', stop, start'', stop', run⟩ frames
    obtain rfl : target = start' := Option.some.inj (start.symm.trans start'')
    obtain ⟨s, here, isStop, -⟩ := known.stop_rule stop'
    have enters : n.Run low high (q, frames) [] (target, q' :: frames) :=
      leaves.run_silent (.head _) rfl
    have back : n.Run low high (stop, q' :: frames) [] (q', frames) :=
      .silent (.back here isStop) (.refl _)
    simpa using (enters.trans (run.append silent (q' :: frames))).trans back
  sound L m K calls behind := .call leaves (calls rule target start) behind

/-- Two fragments in a row. -/
theorem append (first : n.Spells low high f X) (second : n.Spells low high g Y)
    (link : n.LeavesBy f.exit [.plain g.entry]) :
    n.Spells low high ⟨f.entry, g.exit⟩ fun L => X L * Y L where
  complete := by
    intro _ mem frames
    obtain ⟨v, memX, w, memY, rfl⟩ := Language.mem_mul.1 mem
    have linked : n.Run low high (f.exit, frames) [] (g.entry, frames) :=
      link.run_link
    simpa using ((first.complete v memX frames).trans linked).trans (second.complete w memY frames)
  sound L m K calls behind := by
    rw [mul_assoc]
    exact first.sound L m _ calls (.plain link (second.sound L m K calls behind))

/-- A fragment whose exit leads on. -/
theorem linked (h : n.Spells low high f X) (link : n.LeavesBy f.exit [.plain stop]) :
    n.Spells low high ⟨f.entry, stop⟩ X where
  complete := by
    intro w mem frames
    have linked : n.Run low high (f.exit, frames) [] (stop, frames) :=
      link.run_link
    simpa using (h.complete w mem frames).trans linked
  sound L m K calls behind := h.sound L m K calls (.plain link behind)

/-- A state by itself. -/
theorem refl (q : Nat) : n.Spells low high ⟨q, q⟩ fun _ => 1 where
  complete := by
    rintro _ rfl frames
    exact .refl _
  sound _ _ K _ behind := by rwa [one_mul]

theorem mem_sum {Xs : List (Language Symbol)} : w ∈ Xs.sum ↔ ∃ X ∈ Xs, w ∈ X := by
  induction Xs with
  | nil => simp
  | cons X Xs ih => rw [List.sum_cons, Language.mem_add, ih, List.exists_mem_cons_iff]

/-- A choice among fragments that all lead to the same state. -/
theorem choice {targets : List Nat} {Xs : List ((Nat → Language Symbol) → Language Symbol)}
    (leaves : n.LeavesBy start (targets.map .plain))
    (each : List.Forall₂ (fun q X => n.Spells low high ⟨q, stop⟩ X) targets Xs) :
    n.Spells low high ⟨start, stop⟩ fun L => (Xs.map (· L)).sum where
  complete := by
    intro w mem frames
    obtain ⟨_, mem, here⟩ := mem_sum.1 mem
    obtain ⟨X, listed, rfl⟩ := List.mem_map.1 mem
    obtain ⟨i, lt, rfl⟩ := List.mem_iff_getElem.1 listed
    have lt' : i < targets.length := each.length_eq ▸ lt
    have spells := (List.forall₂_iff_get.1 each).2 i lt' lt
    have enters : n.Run low high (start, frames) [] (targets[i], frames) :=
      leaves.run_plain (List.getElem_mem lt')
    simpa using enters.trans (spells.complete w here frames)
  sound L m K calls behind := by
    refine (EndsIn.plains targets leaves fun q mem => ?_).mono (Nat.le_succ m) le_rfl
    obtain ⟨i, lt, rfl⟩ := List.mem_iff_getElem.1 mem
    have lt' : i < Xs.length := each.length_eq ▸ lt
    have spells := (List.forall₂_iff_get.1 each).2 i lt lt'
    refine (spells.sound L m K calls behind).mono le_rfl (mul_le_mul_left ?_ K)
    exact fun w here => mem_sum.2 ⟨_, List.mem_map_of_mem (List.getElem_mem lt'), here⟩

section Loops

variable {back entry exit : Nat} {leaves : List Nat}

/-- Words of a loop lead back to where it is entered. -/
theorem complete_again {frames : List Nat} (block : n.Spells low high ⟨start, stop⟩ X)
    (again : n.Run low high (entry, frames) [] (start, frames))
    (round : n.Run low high (stop, frames) [] (entry, frames)) {words : List (List Symbol)}
    (all : ∀ w ∈ words, w ∈ X (n.language low high)) :
    n.Run low high (entry, frames) words.flatten (entry, frames) := by
  induction words with
  | nil => exact .refl _
  | cons w words ih =>
      have once := (again.trans (block.complete w (all w (.head _)) frames)).trans round
      simpa using once.trans (ih fun w mem => all w (.tail _ mem))

/-- What leads from the decision of a loop to the end goes around some times and leaves. -/
theorem sound_again {L : Nat → Language Symbol} (block : n.Spells low high ⟨start, stop⟩ X)
    (decides : n.LeavesBy q (leaves.map .plain)) (ways : ∀ q' ∈ leaves, q' = start ∨ q' = exit)
    (round : ∀ m K, n.EndsIn low high m q K → n.EndsIn low high m stop K)
    (calls : n.CallsIn low high m L) (behind : n.EndsIn low high m exit K) :
    n.EndsIn low high m q ((X L)∗ * K) := by
  induction m with
  | zero => exact .zero q _
  | succ m ih =>
      have again := ih (calls.mono (Nat.le_succ m)) (behind.mono (Nat.le_succ m) le_rfl)
      refine .plains leaves decides fun q' mem => ?_
      rcases ways q' mem with rfl | rfl
      · refine (block.sound L m _ (calls.mono (Nat.le_succ m)) (round m _ again)).mono le_rfl ?_
        rw [← mul_assoc]
        exact mul_le_mul_left mul_kstar_le_kstar K
      · refine behind.mono (Nat.le_succ m) ?_
        simpa using mul_le_mul_left (one_le_kstar (a := X L)) K

/-- A loop that is entered at its decision. -/
theorem star (block : n.Spells low high ⟨start, stop⟩ X) (ends : n.LeavesBy stop [.plain back])
    (loops : n.LeavesBy back [.plain entry]) (decides : n.LeavesBy entry (leaves.map .plain))
    (ways : ∀ q, q ∈ leaves ↔ q = start ∨ q = exit) :
    n.Spells low high ⟨entry, exit⟩ fun L => (X L)∗ where
  complete := by
    intro w mem frames
    obtain ⟨words, rfl, all⟩ := Language.mem_kstar.1 mem
    have again : n.Run low high (entry, frames) [] (start, frames) :=
      decides.run_plain ((ways start).2 (.inl rfl))
    have leave : n.Run low high (entry, frames) [] (exit, frames) :=
      decides.run_plain ((ways exit).2 (.inr rfl))
    have first : n.Run low high (stop, frames) [] (back, frames) :=
      ends.run_link
    have second : n.Run low high (back, frames) [] (entry, frames) :=
      loops.run_link
    simpa using (block.complete_again again (first.trans second) all).trans leave
  sound L m K calls behind :=
    block.sound_again decides (fun q mem => (ways q).1 mem)
      (fun _ _ h => .plain ends (.plain loops h)) calls behind

/-- A loop that is entered behind its decision. -/
theorem plus (block : n.Spells low high ⟨start, stop⟩ X) (ends : n.LeavesBy stop [.plain back])
    (decides : n.LeavesBy back (leaves.map .plain))
    (ways : ∀ q, q ∈ leaves ↔ q = start ∨ q = exit) :
    n.Spells low high ⟨start, exit⟩ fun L => X L * (X L)∗ where
  complete := by
    intro _ mem frames
    obtain ⟨v, first, _, more, rfl⟩ := Language.mem_mul.1 mem
    obtain ⟨words, rfl, all⟩ := Language.mem_kstar.1 more
    have again : n.Run low high (back, frames) [] (start, frames) :=
      decides.run_plain ((ways start).2 (.inl rfl))
    have leave : n.Run low high (back, frames) [] (exit, frames) :=
      decides.run_plain ((ways exit).2 (.inr rfl))
    have round : n.Run low high (stop, frames) [] (back, frames) :=
      ends.run_link
    simpa using (((block.complete v first frames).trans round).trans
      (block.complete_again again round all)).trans leave
  sound L m K calls behind := by
    rw [mul_assoc]
    refine block.sound L m _ calls (.plain ends ?_)
    exact block.sound_again decides (fun q mem => (ways q).1 mem)
      (fun _ _ h => .plain ends h) calls behind

end Loops

end Spells

end Network

end AdaptiveLL
