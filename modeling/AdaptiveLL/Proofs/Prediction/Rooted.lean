import AdaptiveLL.Prediction.Conflict
import AdaptiveLL.Proofs.Network.Lookahead
import AdaptiveLL.Proofs.Prediction.Adaptive
import AdaptiveLL.Proofs.Prediction.Population
/-!
Where threads end. A prediction with the full context starts all of its threads on one call stack.
Where edges stay in their rules and callers go on in theirs, whatever a thread calls and returns
from, the state below all of its frames stays in one rule: the rule in which it will have finished.
-/
namespace AdaptiveLL

namespace StackGraph

variable {g : StackGraph} {a b id : Nat} {as bs es : List (Nat × Nat)}

/-- Each stack of the third node is one of the two others. -/
def Among (g : StackGraph) (a b id : Nat) : Prop :=
  g.stackSet id ⊆ g.stackSet a ∪ g.stackSet b

theorem Zips.through_subset (zips : Zips g.Among as bs es) :
    g.through es ⊆ g.through as ∪ g.through bs := by
  induction zips with
  | left bs => exact Set.subset_union_right
  | right as => exact Set.subset_union_left
  | @both pa pb parent resume as bs es merged _ ih =>
      have first : g.way (parent, resume) ⊆ g.way (pa, resume) ∪ g.way (pb, resume) := by
        by_cases bottom : resume = noState
        · simp [way, bottom]
        · simp only [way, if_neg bottom]
          rw [← Set.image_union]
          exact Set.image_mono merged
      simp only [through_cons]
      rintro frames (here | later)
      · exact (first here).imp .inl .inl
      · exact (ih later).imp .inr .inr
  | first _ _ ih =>
      rw [through_cons, through_cons]
      rintro frames (here | later)
      · exact .inl (.inl here)
      · exact (ih later).imp .inr id
  | second _ _ ih =>
      simp only [through_cons] at ih ⊢
      rintro frames (here | later)
      · exact .inr (.inl here)
      · exact (ih later).imp id .inr

/-- Merging brings in no stacks, whatever the empty one stands for. -/
theorem mergeRule_among (wildcard : Bool) : Stacks.MergeRule wildcard Among where
  same _ _ := Set.subset_union_left
  symm h := by rwa [Among, Set.union_comm]
  mono h tidy grown left right present := by
    rw [Among, left.stackSet_eq tidy grown, right.stackSet_eq tidy grown,
      present.stackSet_eq tidy grown]
    exact h
  absorb _ _ empty := by
    rcases empty with rfl | rfl
    · exact Set.subset_union_left
    · exact Set.subset_union_right
  beside {g a b id es} exact tidy _ _ _ empty others made := by
    have other : g.through es = g.stackSet (max a b) := by rw [tidy.stackSet_eq, others]
    have bottom : g.through [(0, noState)] = g.stackSet 0 := by simp [way]
    rw [Among, made.stackSet_eq tidy (by simp), through_append, other, bottom]
    rcases empty with rfl | rfl
    · rw [Nat.zero_max, Set.union_comm]
    · rw [Nat.max_zero]
  nodes {g a b id es} tidy _ _ _ _ _ zips made := by
    rw [Among, made.stackSet_eq tidy (zips.ne_nil (tidy.entries_ne_nil a)), tidy.stackSet_eq a,
      tidy.stackSet_eq b]
    exact zips.through_subset

end StackGraph

open StackGraph

/-- Where the caller goes on. -/
def Transition.follow? : Transition → Option Nat
  | .call _ _ _ follow => some follow
  | _ => none

theorem Transition.follow?_of_reads {t : Transition} {symbol low high : Symbol}
    (reads : t.reads symbol low high = true) : t.follow? = none := by
  cases t with
  | call => cases reads
  | _ => rfl

namespace Network

/-- The state is one of the rule. -/
abbrev InRule (n : Network) (q rule : Nat) : Prop :=
  n.states[q]?.map State.rule = some rule

/-- The state is a rule stop. -/
def IsStop (n : Network) (q : Nat) : Prop :=
  ∃ s, n.states[q]? = some s ∧ s.isRuleStop = true

/-- Edges that are no calls stay in their rules, but for those that go back to callers. -/
def StaysInside (n : Network) : Prop :=
  ∀ s ∈ n.states, s.isRuleStop = false →
    ∀ t ∈ s.transitions, t.follow? = none → n.InRule t.target s.rule

/-- Besides, callers go on in their own rules, and no rule has two stop states. -/
structure Enclosed (n : Network) : Prop where
  inside : n.StaysInside
  follows : ∀ s ∈ n.states, ∀ t ∈ s.transitions, ∀ follow ∈ t.follow?, n.InRule follow s.rule
  oneStop : n.states.toList.Pairwise fun s s' =>
    s.isRuleStop = true → s'.isRuleStop = true → s.rule ≠ s'.rule

namespace Enclosed

variable {n : Network} {q q' : Nat} {s s' : State}

theorem eq_of_stops (h : n.Enclosed) (here : n.states[q]? = some s) (stop : s.isRuleStop = true)
    (here' : n.states[q']? = some s') (stop' : s'.isRuleStop = true) (same : s.rule = s'.rule) :
    q = q' := by
  obtain ⟨lt, rfl⟩ := Array.getElem?_eq_some_iff.1 here
  obtain ⟨lt', rfl⟩ := Array.getElem?_eq_some_iff.1 here'
  have apart {i j : Nat} (hi : i < n.states.size) (hj : j < n.states.size) (before : i < j) :
      n.states[i].isRuleStop = true → n.states[j].isRuleStop = true →
        n.states[i].rule ≠ n.states[j].rule :=
    List.pairwise_iff_getElem.1 h.oneStop i j hi hj before
  rcases Nat.lt_trichotomy q q' with before | rfl | behind
  · exact absurd same (apart lt lt' before stop stop')
  · rfl
  · exact absurd same.symm (apart lt' lt behind stop' stop)

end Enclosed

end Network

variable {n : Network} {full : Prop} {rule : Nat} {g g' : StackGraph}

/-- The thread is for an alternative. With the full context it ends in the rule, through whichever of
its stacks: the state below all frames is one of the rule. -/
structure Configuration.Rooted (n : Network) (full : Prop) (rule : Nat) (g : StackGraph)
    (c : Configuration) : Prop where
  chosen : c.alt ≠ noAlt
  present : g.Present c.stack
  bottom : full → ∀ frames ∈ g.stackSet c.stack, n.InRule (frames.getLastD c.state) rule

namespace Configuration.Rooted

variable {c c' : Configuration}

theorem mono (h : c.Rooted n full rule g) (tidy : g.Tidy) (grown : g.Extends g') :
    c.Rooted n full rule g' where
  chosen := h.chosen
  present := h.present.mono grown
  bottom exact frames mem := by
    rw [h.present.stackSet_eq tidy grown] at mem
    exact h.bottom exact frames mem

/-- The thread goes on in its rule. -/
theorem goOn (h : c.Rooted n full rule g) (alt : c'.alt = c.alt) (stack : c'.stack = c.stack)
    (inside : full → ∀ r, n.InRule c.state r → n.InRule c'.state r) :
    c'.Rooted n full rule g where
  chosen := alt ▸ h.chosen
  present := stack ▸ h.present
  bottom exact frames mem := by
    have below := h.bottom exact frames (stack ▸ mem)
    cases frames with
    | nil => exact inside exact rule below
    | cons => simpa only [List.getLastD_cons] using below

/-- The thread makes a call. -/
theorem call (h : c.Rooted n full rule g) (grown : g.Extends g') (tidy : g.Tidy)
    (present : g'.Present c'.stack) (alt : c'.alt = c.alt) {follow : Nat}
    (pushed : full → g'.stackSet c'.stack = (follow :: ·) '' g'.stackSet c.stack)
    (inside : full → ∀ r, n.InRule c.state r → n.InRule follow r) :
    c'.Rooted n full rule g' where
  chosen := alt ▸ h.chosen
  present := present
  bottom exact frames mem := by
    rw [pushed exact, h.present.stackSet_eq tidy grown] at mem
    obtain ⟨below, mem, rfl⟩ := mem
    have bottom := h.bottom exact below mem
    rw [List.getLastD_cons]
    cases below with
    | nil => exact inside exact rule bottom
    | cons => simpa only [List.getLastD_cons] using bottom

/-- The thread goes back to a caller. -/
theorem back (h : c.Rooted n full rule g) (tidy : g.Tidy) {parent : Nat} (alt : c'.alt = c.alt)
    (stack : c'.stack = parent) (mem : (parent, c'.state) ∈ (g.node c.stack).entries)
    (isState : c'.state ≠ noState) : c'.Rooted n full rule g where
  chosen := alt ▸ h.chosen
  present := stack ▸ tidy.entries_present _ _ mem
  bottom exact frames inside := by
    have through : c'.state :: frames ∈ g.stackSet c.stack := by
      rw [tidy.stackSet_eq]
      exact ⟨_, mem, (mem_way isState).2 ⟨frames, stack ▸ inside, rfl⟩⟩
    simpa only [List.getLastD_cons] using h.bottom exact _ through

/-- The thread ends its last rule. -/
theorem finish (h : c.Rooted n full rule g) (tidy : g.Tidy) (alt : c'.alt = c.alt)
    (state : c'.state = c.state) (stack : c'.stack = 0) {parent : Nat}
    (mem : (parent, noState) ∈ (g.node c.stack).entries) : c'.Rooted n full rule g where
  chosen := alt ▸ h.chosen
  present := stack ▸ present_zero
  bottom exact frames inside := by
    rw [stack, stackSet_zero] at inside
    obtain rfl := inside
    have empty : [] ∈ g.stackSet c.stack := by
      rw [tidy.stackSet_eq]
      exact ⟨_, mem, by simp [way]⟩
    exact state ▸ h.bottom exact [] empty

end Configuration.Rooted

namespace ConfigurationSet

variable {set : ConfigurationSet} {c : Configuration} {s : Stacks}

def Rooted (n : Network) (full : Prop) (rule : Nat) (g : StackGraph) (set : ConfigurationSet) : Prop :=
  ∀ c ∈ set.toList, c.Rooted n full rule g

/-- Threads in stop states have nothing left on their stacks. -/
def Spent (n : Network) (set : ConfigurationSet) : Prop :=
  ∀ c ∈ set.toList, ∀ s, n.states[c.state]? = some s → s.isRuleStop = true → c.stack = 0

theorem Rooted.empty (n : Network) (full : Prop) (rule : Nat) (g : StackGraph) (fullContext : Bool) :
    Rooted n full rule g { fullContext } :=
  fun c mem => by simp [toList] at mem

theorem Spent.empty (n : Network) (fullContext : Bool) : Spent n { fullContext } :=
  fun c mem => by simp [toList] at mem

theorem Rooted.mono (h : set.Rooted n full rule g) (tidy : g.Tidy) (grown : g.Extends g') :
    set.Rooted n full rule g' :=
  fun c mem => (h c mem).mono tidy grown

/-- What adding a thread does: it is put behind the others, or merged with one in its state, or there
already. -/
theorem insert_cases (set : ConfigurationSet) (c : Configuration) (s : Stacks) :
    (set.insert c s).2 = s ∧ (∀ c' ∈ (set.insert c s).1.toList, c' ∈ set.toList ∨ c' = c) ∨
    ∃ old ∈ set.toList, old.state = c.state ∧ ∃ wildcard,
      let merged := s.merge wildcard old.stack c.stack
      (set.insert c s).2 = merged.2 ∧
        ∀ c' ∈ (set.insert c s).1.toList, c' ∈ set.toList ∨ c' = absorb merged.1 c old := by
  unfold insert add
  simp only
  split
  case h_1 =>
      refine .inl ⟨rfl, fun c' mem => ?_⟩
      exact Array.mem_push.1 (Array.mem_toList_iff.1 mem) |>.imp Array.mem_toList_iff.2 id
  case h_2 k found =>
      split
      case isTrue => exact .inl ⟨rfl, fun c' mem => .inl mem⟩
      case isFalse unordered =>
          simp only [if_neg unordered] at found
          obtain ⟨inside, same, -⟩ := Array.findIdx?_eq_some_iff_getElem.1 found
          have get : set.items[k]? = some set.items[k] := Array.getElem?_eq_getElem inside
          simp only [Configuration.sameKey, Bool.and_eq_true, beq_iff_eq] at same
          refine .inr ⟨set.items[k], Array.mem_toList_iff.2 (Array.getElem_mem inside), same.1.1.symm,
            !set.fullContext, ?_⟩
          simp only [get, Option.getD_some]
          refine ⟨trivial, fun c' mem => ?_⟩
          rcases mem_modify (Array.mem_toList_iff.1 mem) with old | ⟨old, get', rfl⟩
          · exact .inl (Array.mem_toList_iff.2 old)
          · rw [Option.some.inj (get.symm.trans get')]
            exact .inr rfl

/-- A rooted thread can be added. -/
theorem Rooted.insert (h : set.Rooted n full rule s.graph) (keeps : s.Keeps Among)
    (thread : c.Rooted n full rule s.graph) :
    let made := set.insert c s
    s.graph.Extends made.2.graph ∧ made.2.Keeps Among ∧ made.1.Rooted n full rule made.2.graph := by
  intro made
  rcases insert_cases set c s with ⟨same, members⟩ | ⟨old, mem, state, wildcard, same, members⟩
  · rw [show made.2 = s from same]
    refine ⟨.refl _, keeps, fun c' mem => ?_⟩
    rcases members c' mem with old | rfl
    · exact h c' old
    · exact thread
  · have yields := Stacks.merge_yields (mergeRule_among wildcard) keeps (h old mem).present thread.present
    rw [show made.2 = (s.merge wildcard old.stack c.stack).2 from same]
    refine ⟨yields.grown, yields.keeps, fun c' mem' => ?_⟩
    have left := (h old mem).mono keeps.tidy yields.grown
    have right := thread.mono keeps.tidy yields.grown
    rcases members c' mem' with old' | rfl
    · exact (h c' old').mono keeps.tidy yields.grown
    · refine ⟨left.chosen, yields.present, fun exact frames inside => ?_⟩
      rcases yields.related inside with inside | inside
      · exact left.bottom exact frames inside
      · exact state ▸ right.bottom exact frames inside

theorem Spent.insert (h : set.Spent n)
    (thread : ∀ s, n.states[c.state]? = some s → s.isRuleStop = true → c.stack = 0) :
    (set.insert c s).1.Spent n := by
  intro c' mem here found stop
  rcases insert_cases set c s with ⟨-, members⟩ | ⟨old, mem', state, wildcard, -, members⟩
  · rcases members c' mem with old | rfl
    · exact h c' old here found stop
    · exact thread here found stop
  · rcases members c' mem with old' | rfl
    · exact h c' old' here found stop
    · have left : old.stack = 0 := h old mem' here found stop
      have right : c.stack = 0 := thread here (state ▸ found) stop
      show (s.merge wildcard old.stack c.stack).1 = 0
      rw [left, right, Stacks.merge_self]

/-- All threads stand in stop states. -/
def Ended (n : Network) (set : ConfigurationSet) : Prop :=
  ∀ c ∈ set.toList, n.IsStop c.state

theorem Ended.empty (n : Network) (fullContext : Bool) : Ended n { fullContext } :=
  fun c mem => by simp [toList] at mem

theorem Ended.insert (h : set.Ended n) (thread : n.IsStop c.state) : (set.insert c s).1.Ended n := by
  intro c' mem
  rcases insert_cases set c s with ⟨-, members⟩ | ⟨old, mem', -, wildcard, -, members⟩
  · rcases members c' mem with old | rfl
    · exact h c' old
    · exact thread
  · rcases members c' mem with old' | rfl
    · exact h c' old'
    · exact h old mem'

theorem allInRuleStop_eq_true : set.allInRuleStop n = .ok true ↔ set.Ended n := by
  rw [allInRuleStop, Ended]
  generalize set.toList = threads
  induction threads with
  | nil => simp [List.allM, pure, Except.pure]
  | cons c rest ih =>
      rw [List.allM, List.forall_mem_cons, ← ih]
      cases found : n.state c.state with
      | error fault =>
          refine ⟨fun impossible => by simp [bind, Except.bind] at impossible, ?_⟩
          rintro ⟨⟨here, known, -⟩, -⟩
          rw [Lookahead.state_eq_ok.2 known] at found
          cases found
      | ok here =>
          have known := Lookahead.state_eq_ok.1 found
          cases stop : here.isRuleStop with
          | true =>
              have isStop : n.IsStop c.state := ⟨here, known, stop⟩
              simp [bind, Except.bind, pure, Except.pure, stop, isStop]
          | false =>
              have inner : ¬ n.IsStop c.state := by
                rintro ⟨here', known', stop'⟩
                rw [known] at known'
                obtain rfl := Option.some.inj known'
                cases stop.symm.trans stop'
              simp [bind, Except.bind, pure, Except.pure, stop, inner]

/-- Threads that have all ended their last rules are in one place: the stop of the rule they are
rooted in. -/
theorem Rooted.one_place (h : set.Rooted n full rule g) (exact : full) (enclosed : n.Enclosed)
    (ended : set.Ended n) (spent : set.Spent n) {c c' : Configuration} (mem : c ∈ set.toList)
    (mem' : c' ∈ set.toList) : (c.state, c.stack) = (c'.state, c'.stack) := by
  obtain ⟨here, found, stop⟩ := ended c mem
  obtain ⟨here', found', stop'⟩ := ended c' mem'
  have bare : c.stack = 0 := spent c mem here found stop
  have bare' : c'.stack = 0 := spent c' mem' here' found' stop'
  have root : n.InRule c.state rule := (h c mem).bottom exact [] (by simp [bare])
  have root' : n.InRule c'.state rule := (h c' mem').bottom exact [] (by simp [bare'])
  have same : here.rule = here'.rule := by
    simp only [Network.InRule, found, found', Option.map_some, Option.some.injEq] at root root'
    rw [root, root']
  rw [enclosed.eq_of_stops found stop found' stop' same, bare, bare']

theorem group_singleton (lt : Nat × Nat → Nat × Nat → Bool) (key : Nat × Nat) (alt : Nat)
    (alts : AltSet) : group lt key alt [(key, alts)] = [(key, alts.insert alt)] := by
  rw [group, if_pos rfl]

/-- Threads in one place make one set of alternatives. -/
theorem altSubsets_of_one_place {c : Configuration} {rest : List Configuration}
    (threads : set.toList = c :: rest)
    (place : ∀ c' ∈ rest, (c'.state, c'.stack) = (c.state, c.stack)) :
    set.altSubsets = [set.alts] := by
  have fold (alts : AltSet) :
      rest.foldl (fun groups c' => group keyLt (c'.state, c'.stack) c'.alt groups)
          [((c.state, c.stack), alts)]
        = [((c.state, c.stack), (rest.map Configuration.alt).foldl (fun acc a => acc.insert a) alts)] := by
    clear threads
    induction rest generalizing alts with
    | nil => rfl
    | cons c' rest ih =>
        rw [List.foldl_cons, place c' (.head _), group_singleton,
          ih fun c mem => place c (.tail _ mem)]
        rfl
  rw [altSubsets, groupBy, threads, List.foldl_cons, group, fold]
  rw [ConfigurationSet.alts, threads]
  rfl

theorem agreedAlt_of_forall {a : Nat} (all : ∀ c ∈ set.toList, c.alt = a) (some : set.toList ≠ []) :
    set.agreedAlt = a := by
  obtain ⟨c, rest, threads⟩ := List.exists_cons_of_ne_nil some
  obtain ⟨rfl, others⟩ := List.forall_mem_cons.1 (threads ▸ all)
  rw [agreedAlt, threads, List.map_cons]
  exact if_pos (by simpa using others)

/-- Threads in one place that are for several alternatives are a conflict on which every mode stops. -/
theorem stops_of_one_place {c : Configuration} {rest : List Configuration}
    (threads : set.toList = c :: rest)
    (place : ∀ c' ∈ rest, (c'.state, c'.stack) = (c.state, c.stack))
    (chosen : ∀ c ∈ set.toList, c.alt ≠ noAlt) (disagree : set.agreedAlt = noAlt) :
    Conflict.allConflict set.altSubsets = true ∧ Conflict.allEqual set.altSubsets = true ∧
      Conflict.viableAlt set.altSubsets ≠ noAlt := by
  have some : set.toList ≠ [] := threads ▸ List.cons_ne_nil _ _
  have listed : ∀ {a}, a ∈ set.alts ↔ ∃ c ∈ set.toList, c.alt = a :=
    AltSet.mem_ofList.trans List.mem_map
  obtain ⟨a, more, alts⟩ : ∃ a more, set.alts = a :: more :=
    List.exists_cons_of_ne_nil (List.ne_nil_of_mem (listed.2 ⟨c, threads ▸ .head _, rfl⟩))
  obtain ⟨first, mem, eq⟩ := listed.1 (alts ▸ List.mem_cons_self)
  have real : a ≠ noAlt := eq ▸ chosen first mem
  have several : more ≠ [] := by
    rintro rfl
    have all : ∀ c ∈ set.toList, c.alt = a := fun c mem => by
      simpa [alts] using listed.2 ⟨c, mem, rfl⟩
    exact real ((agreedAlt_of_forall all some).symm.trans disagree)
  rw [altSubsets_of_one_place threads place, alts]
  refine ⟨?_, rfl, ?_⟩
  · simpa [Conflict.allConflict, Conflict.hasSettled] using several
  · simpa [Conflict.viableAlt] using real

end ConfigurationSet

end AdaptiveLL
