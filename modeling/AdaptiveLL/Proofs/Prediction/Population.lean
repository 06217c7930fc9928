import AdaptiveLL.Prediction.Configuration
import AdaptiveLL.Proofs.Network.Pushdown
import AdaptiveLL.Proofs.Prediction.Union
/-!
The threads of a configuration set. A configuration stands for one thread with each of its stacks.
Adding a thread adds it to those that the set stands for; where callers may be unknown, only the
threads are left whose stacks do not go on from the stack of another one at the same place.
-/
namespace AdaptiveLL

open StackGraph

/-- Stacks whose merges join what they stand for. -/
structure Stacks.Joined (full : Bool) (s : Stacks) : Prop where
  keeps : s.Keeps (Joins (!full))
  ordered : s.graph.Ordered

namespace Stacks.Joined

variable {full : Bool} {s : Stacks} {a b : Nat}

theorem tidy (h : s.Joined full) : s.graph.Tidy :=
  h.keeps.tidy

/-- Nothing is remembered that is no union. -/
theorem of_fresh (tidy : s.graph.Tidy) (ordered : s.graph.Ordered) (fresh : s.memo = []) :
    s.Joined full where
  keeps := ⟨tidy, fun entry mem => by rw [fresh] at mem; cases mem⟩
  ordered := ordered

theorem merge (h : s.Joined full) (left : s.graph.Present a) (right : s.graph.Present b)
    (free : full = false → PrefixFree (s.graph.stackSet a) ∧ PrefixFree (s.graph.stackSet b)) :
    let made := s.merge (!full) a b
    s.graph.Extends made.2.graph ∧ made.2.Joined full ∧ made.2.graph.Present made.1 ∧
      made.2.graph.stackSet made.1 = join (!full) (s.graph.stackSet a) (s.graph.stackSet b) := by
  intro made
  have yields := Stacks.merge_yields (mergeRule_join (!full)) h.keeps left right
  have ordered := yields.ordered h.ordered
  refine ⟨yields.grown, ⟨yields.keeps, ordered⟩, yields.present, ?_⟩
  have joined := yields.related ordered
  rw [left.stackSet_eq h.tidy yields.grown, right.stackSet_eq h.tidy yields.grown] at joined
  exact joined fun wild => free (by simpa using wild)

theorem push (h : s.Joined full) {parent resume : Nat} {frames : List Nat}
    (holds : s.graph.Holds parent frames) (known : s.graph.Present parent)
    (isState : resume < noState) :
    let made := s.push parent resume
    s.graph.Extends made.2.graph ∧ made.2.Joined full ∧ made.2.graph.Holds made.1 (resume :: frames) := by
  intro made
  obtain ⟨grown, keeps, ordered, -⟩ := h.keeps.push (mergeRule_join (!full)) known isState
  have stack := (push_spec (Nat.ne_of_lt isState) holds).1
  exact ⟨grown, ⟨keeps, ordered h.ordered⟩, stack⟩

end Stacks.Joined

/-- The node of a stack is there. -/
theorem StackGraph.Holds.present {g : StackGraph} {id : Nat} {frames : List Nat}
    (h : g.Holds id frames) : g.Present id := by
  cases h with
  | empty => exact present_zero
  | frame node => exact .inr fun none => by cases node.symm.trans none

/-- Threads, each by its alternative and its place. -/
abbrev Population := Set (Nat × Place)

namespace Population

variable {A : Population} {full : Bool} {alt state alt' state' : Nat} {frames : List Nat}

/-- The stacks of the threads for an alternative in a state. -/
def stacksAt (A : Population) (alt state : Nat) : Set (List Nat) :=
  { frames | (alt, state, frames) ∈ A }

/-- What is kept of threads. Where callers may be unknown, a thread is left out if another one of its
alternative is in its state with less on its stack. -/
def settle (full : Bool) (A : Population) : Population :=
  { thread | thread ∈ A ∧ (full = false → ∀ frames, (thread.1, thread.2.1, frames) ∈ A →
    frames <+: thread.2.2 → frames = thread.2.2) }

theorem stacksAt_settle : (A.settle full).stacksAt alt state =
    if full then A.stacksAt alt state else least (A.stacksAt alt state) := by
  ext frames
  cases full <;> simp [stacksAt, settle, least]

/-- One more thread. -/
def add (A : Population) (alt state : Nat) (frames : List Nat) : Population :=
  insert (alt, state, frames) A

theorem stacksAt_add_same (A : Population) (alt state : Nat) (frames : List Nat) :
    (A.add alt state frames).stacksAt alt state = A.stacksAt alt state ∪ {frames} := by
  ext frames'
  simp [add, stacksAt]

theorem stacksAt_add_other (other : ¬ (alt' = alt ∧ state' = state)) :
    (A.add alt state frames).stacksAt alt' state' = A.stacksAt alt' state' := by
  ext frames'
  simp only [add, stacksAt, Set.mem_insert_iff, Set.mem_ofPred_eq, Prod.mk.injEq]
  constructor
  · rintro (⟨rfl, rfl, -⟩ | old)
    · exact absurd ⟨rfl, rfl⟩ other
    · exact old
  · exact .inr

/-- A thread that joins others. -/
theorem settle_add_same (A : Population) (full : Bool) (alt state : Nat) (frames : List Nat) :
    ((A.add alt state frames).settle full).stacksAt alt state =
      join (!full) ((A.settle full).stacksAt alt state) {frames} := by
  rw [stacksAt_settle, stacksAt_settle, stacksAt_add_same]
  cases full with
  | true => rfl
  | false => exact least_union_least.symm

theorem settle_add_other (other : ¬ (alt' = alt ∧ state' = state)) :
    ((A.add alt state frames).settle full).stacksAt alt' state' =
      (A.settle full).stacksAt alt' state' := by
  rw [stacksAt_settle, stacksAt_settle, stacksAt_add_other other]

theorem prefixFree_settle (A : Population) (alt state : Nat) :
    PrefixFree ((A.settle false).stacksAt alt state) := by
  rw [stacksAt_settle]
  exact prefixFree_least

end Population

theorem StackGraph.prefixFree_singleton (frames : List Nat) : PrefixFree {frames} := by
  rintro _ rfl _ rfl _
  rfl

namespace Configuration

/-- Where a thread counts as the same as others. -/
def key (c : Configuration) : Nat × Nat :=
  (c.alt, c.state)

/-- What threads in one place of a parser set have in common. -/
def slot (c : Configuration) : Nat × Nat × Guard :=
  (c.state, c.alt, c.guard)

theorem sameKey_iff (c c' : Configuration) : c.sameKey c' = true ↔ c.slot = c'.slot := by
  simp [sameKey, slot, and_assoc]

end Configuration

namespace ConfigurationSet

variable {full : Bool} {g g' : StackGraph} {set set' : ConfigurationSet} {A : Population}
  {c c' : Configuration} {s : Stacks} {frames : List Nat}

/-- What a change at one place keeps of each thread. -/
theorem map_modify {β : Type} {items : Array Configuration} {k : Nat} {f : Configuration → Configuration}
    {view : Configuration → β} (same : ∀ c, view (f c) = view c) :
    (items.modify k f).toList.map view = items.toList.map view := by
  apply List.ext_getElem?
  intro i
  rw [List.getElem?_map, List.getElem?_map, Array.toList_modify, List.getElem?_modify]
  split
  · cases items.toList[i]? with
    | none => rfl
    | some c => exact congrArg some (same c)
  · rw [id_map']

theorem mem_modify {α : Type} {a : α} {items : Array α} {k : Nat} {f : α → α}
    (mem : a ∈ items.modify k f) : a ∈ items ∨ ∃ old, items[k]? = some old ∧ a = f old := by
  obtain ⟨i, get⟩ := Array.mem_iff_getElem?.1 mem
  rw [Array.getElem?_modify] at get
  split at get
  case isTrue here =>
      subst here
      obtain ⟨old, get', rfl⟩ := Option.map_eq_some_iff.1 get
      exact .inr ⟨old, get', rfl⟩
  case isFalse => exact .inl (Array.mem_of_getElem? get)

/-- The configurations taken apart: one thread for each stack. -/
def threadList (set : ConfigurationSet) (g : StackGraph) : List (Nat × Place) :=
  set.toList.flatMap fun c => (g.stackList c.stack).map fun frames => (c.alt, c.state, frames)

/-- The threads that a set stands for. -/
def threads (set : ConfigurationSet) (g : StackGraph) : Population :=
  { thread | thread ∈ set.threadList g }

theorem mem_stacksAt {alt state : Nat} : frames ∈ (set.threads g).stacksAt alt state ↔
    ∃ c ∈ set.toList, c.key = (alt, state) ∧ frames ∈ g.stackSet c.stack := by
  simp only [threads, Population.stacksAt, threadList, stackSet, Configuration.key, Set.mem_ofPred_eq,
    List.mem_flatMap, List.mem_map, Prod.mk.injEq]
  apply exists_congr
  intro c
  apply and_congr_right
  intro _
  constructor
  · rintro ⟨_, mem, alt, state, rfl⟩
    exact ⟨⟨alt, state⟩, mem⟩
  · rintro ⟨⟨alt, state⟩, mem⟩
    exact ⟨frames, mem, alt, state, rfl⟩

/-- The set stands for what is kept of a population. -/
structure Represents (full : Bool) (g : StackGraph) (set : ConfigurationSet) (A : Population) : Prop where
  fullContext : set.fullContext = full
  unordered : set.ordered = false
  present : ∀ c ∈ set.toList, g.Present c.stack
  unguarded : ∀ c ∈ set.toList, c.guard = .always
  keys : (set.toList.map Configuration.key).Nodup
  kept : ∀ alt state, (set.threads g).stacksAt alt state = (A.settle full).stacksAt alt state

namespace Represents

theorem empty (full : Bool) (g : StackGraph) : Represents full g { fullContext := full } ∅ where
  fullContext := rfl
  unordered := rfl
  present c mem := by simp [toList] at mem
  unguarded c mem := by simp [toList] at mem
  keys := by simp [toList]
  kept alt state := by
    ext frames
    rw [mem_stacksAt]
    simp [toList, Population.stacksAt, Population.settle]

theorem threads_eq (h : Represents full g set A) : set.threads g = A.settle full := by
  ext ⟨alt, state, frames⟩
  exact Set.ext_iff.1 (h.kept alt state) frames

theorem mono (h : Represents full g set A) (tidy : g.Tidy) (grown : g.Extends g') :
    Represents full g' set A where
  fullContext := h.fullContext
  unordered := h.unordered
  present c mem := (h.present c mem).mono grown
  unguarded := h.unguarded
  keys := h.keys
  kept alt state := by
    rw [← h.kept alt state]
    ext frames
    rw [mem_stacksAt, mem_stacksAt]
    apply exists_congr
    intro c
    apply and_congr_right
    intro mem
    rw [(h.present c mem).stackSet_eq tidy grown]

/-- Whether a thread left a rule without knowing its caller does not matter. -/
theorem dips (h : Represents full g set A) : Represents full g { set with dipsOutside := true } A where
  fullContext := h.fullContext
  unordered := h.unordered
  present := h.present
  unguarded := h.unguarded
  keys := h.keys
  kept := h.kept

theorem eq_of_key (h : Represents full g set A) (mem : c ∈ set.toList) (mem' : c' ∈ set.toList)
    (same : c.key = c'.key) : c = c' :=
  List.inj_on_of_nodup_map h.keys mem mem' same

/-- The configuration of a state and an alternative has all the stacks of these. -/
theorem stackSet_eq (h : Represents full g set A) (mem : c ∈ set.toList) :
    g.stackSet c.stack = (A.settle full).stacksAt c.alt c.state := by
  rw [← h.kept]
  ext frames
  rw [mem_stacksAt]
  constructor
  · exact fun inside => ⟨c, mem, rfl, inside⟩
  · rintro ⟨c', mem', same, inside⟩
    rwa [← h.eq_of_key mem' mem same]

/-- One configuration takes the place of another one with its key, or is new. -/
theorem update (h : Represents full g set A) (tidy : g.Tidy) (grown : g.Extends g')
    (fullContext : set'.fullContext = full) (unordered : set'.ordered = false)
    (keys : (set'.toList.map Configuration.key).Nodup)
    (members : ∀ c', c' ∈ set'.toList ↔ (c' ∈ set.toList ∧ c'.key ≠ c.key) ∨ c' = c)
    (present : g'.Present c.stack) (unguarded : c.guard = .always)
    (joined : g'.stackSet c.stack = join (!full) ((A.settle full).stacksAt c.alt c.state) {frames}) :
    Represents full g' set' (A.add c.alt c.state frames) := by
  refine ⟨fullContext, unordered, ?_, ?_, keys, fun alt state => ?_⟩
  · intro c' mem
    rcases (members c').1 mem with ⟨old, -⟩ | rfl
    · exact (h.present c' old).mono grown
    · exact present
  · intro c' mem
    rcases (members c').1 mem with ⟨old, -⟩ | rfl
    · exact h.unguarded c' old
    · exact unguarded
  · ext frames'
    rw [mem_stacksAt]
    by_cases here : alt = c.alt ∧ state = c.state
    · obtain ⟨rfl, rfl⟩ := here
      rw [Population.settle_add_same, ← joined]
      constructor
      · rintro ⟨c', mem, key, inside⟩
        rcases (members c').1 mem with ⟨-, other⟩ | rfl
        · exact absurd key other
        · exact inside
      · exact fun inside => ⟨c, (members c).2 (.inr rfl), rfl, inside⟩
    · rw [Population.settle_add_other here, ← h.kept, mem_stacksAt]
      apply exists_congr
      intro c'
      constructor
      · rintro ⟨mem, key, inside⟩
        rcases (members c').1 mem with ⟨old, -⟩ | rfl
        · rw [(h.present c' old).stackSet_eq tidy grown] at inside
          exact ⟨old, key, inside⟩
        · obtain ⟨alt, state⟩ := Prod.mk.inj key
          exact absurd ⟨alt.symm, state.symm⟩ here
      · rintro ⟨old, key, inside⟩
        have other : c'.key ≠ c.key := by
          intro same
          obtain ⟨alt, state⟩ := Prod.mk.inj (key.symm.trans same)
          exact here ⟨alt, state⟩
        refine ⟨(members c').2 (.inl ⟨old, other⟩), key, ?_⟩
        rwa [(h.present c' old).stackSet_eq tidy grown]

/-- A thread with a key of its own. -/
theorem push (h : Represents full g set A) (tidy : g.Tidy) (fullContext : set'.fullContext = full)
    (unordered : set'.ordered = false) (items : set'.items = set.items.push c)
    (holds : g.Holds c.stack frames) (unguarded : c.guard = .always)
    (new : ∀ c' ∈ set.toList, c'.key ≠ c.key) :
    Represents full g set' (A.add c.alt c.state frames) := by
  have list : set'.toList = set.toList ++ [c] := by
    rw [toList, items, Array.toList_push, toList]
  have alone : (A.settle full).stacksAt c.alt c.state = ∅ := by
    rw [← h.kept]
    apply Set.eq_empty_of_forall_notMem
    intro frames' mem
    obtain ⟨c', inside, key, -⟩ := mem_stacksAt.1 mem
    exact new c' inside key
  apply h.update tidy (.refl g) fullContext unordered
  · rw [list, List.map_append, List.map_singleton]
    refine List.nodup_append.2 ⟨h.keys, List.nodup_singleton _, ?_⟩
    intro key mem key' mem' same
    obtain ⟨c', inside, rfl⟩ := List.mem_map.1 mem
    exact new c' inside (same.trans (List.mem_singleton.1 mem'))
  · intro c'
    rw [list, List.mem_append, List.mem_singleton]
    exact or_congr_left ⟨fun old => ⟨old, new c' old⟩, fun old => old.1⟩
  · exact holds.present
  · exact unguarded
  · rw [alone, join_comm, join_empty fun _ => prefixFree_singleton frames]
    exact holds.stackSet_eq tidy

/-- A thread joins those with its key. -/
theorem absorb (h : Represents full g set A) (tidy : g.Tidy) (grown : g.Extends g')
    (fullContext : set'.fullContext = full) (unordered : set'.ordered = false) {k merged : Nat}
    {old : Configuration} (get : set.items[k]? = some old) (same : old.key = c.key)
    (items : set'.items = set.items.modify k (ConfigurationSet.absorb merged c))
    (present : g'.Present merged)
    (joined : g'.stackSet merged = join (!full) (g.stackSet old.stack) {frames}) :
    Represents full g' set' (A.add c.alt c.state frames) := by
  have mem : old ∈ set.toList := Array.mem_toList_iff.2 (Array.mem_of_getElem? get)
  obtain ⟨alt, state⟩ := Prod.mk.inj same
  have get' : set.toList[k]? = some old := by rw [toList, Array.getElem?_toList, get]
  have slots (i : Nat) : set'.toList[i]? =
      if k = i then set.toList[i]?.map (ConfigurationSet.absorb merged c) else set.toList[i]? := by
    rw [toList, items, Array.toList_modify, List.getElem?_modify, toList]
    split <;> simp
  have keys : set'.toList.map Configuration.key = set.toList.map Configuration.key := by
    rw [toList, items]
    exact map_modify fun _ => rfl
  rw [← alt, ← state]
  apply h.update (c := ConfigurationSet.absorb merged c old) tidy grown fullContext unordered
  · rw [keys]
    exact h.keys
  · intro c'
    constructor
    · intro mem'
      obtain ⟨i, get''⟩ := List.mem_iff_getElem?.1 mem'
      rw [slots] at get''
      split at get''
      case isTrue here =>
          subst here
          rw [get'] at get''
          exact .inr (Option.some.inj get'').symm
      case isFalse elsewhere =>
          refine .inl ⟨List.mem_of_getElem? get'', fun equal => elsewhere ?_⟩
          apply (List.getElem?_inj _ h.keys).1
          · rw [List.getElem?_map, List.getElem?_map, get', get'', Option.map_some, Option.map_some, equal]
            rfl
          · rw [List.length_map]
            exact (List.getElem?_eq_some_iff.1 get').1
    · rintro (⟨inside, other⟩ | rfl)
      · obtain ⟨i, get''⟩ := List.mem_iff_getElem?.1 inside
        have elsewhere : k ≠ i := by
          rintro rfl
          obtain rfl := Option.some.inj (get'.symm.trans get'')
          exact other rfl
        apply List.mem_of_getElem? (i := i)
        rw [slots, if_neg elsewhere, get'']
      · apply List.mem_of_getElem? (i := k)
        rw [slots, if_pos rfl, get', Option.map_some]
  · exact present
  · exact h.unguarded old mem
  · rw [h.stackSet_eq mem] at joined
    exact joined

/-- No thread is listed twice. -/
theorem nodup_threadList (h : Represents full g set A) (tidy : g.Tidy) (ordered : g.Ordered) :
    (set.threadList g).Nodup := by
  rw [threadList, List.nodup_flatMap]
  constructor
  · intro c _
    apply (tidy.nodup_stackList ordered c.stack).map
    intro _ _ same
    exact (Prod.mk.inj (Prod.mk.inj same).2).2
  · refine (List.pairwise_map.1 h.keys).imp fun {c c'} other thread mem mem' => other ?_
    obtain ⟨_, -, rfl⟩ := List.mem_map.1 mem
    obtain ⟨_, -, same⟩ := List.mem_map.1 mem'
    obtain ⟨alt, place⟩ := Prod.mk.inj same
    exact Prod.ext alt.symm (Prod.mk.inj place).1.symm

/-- A thread that is added to a set is added to those that the set stands for. -/
theorem insert (h : Represents full s.graph set A) (joined : s.Joined full)
    (holds : s.graph.Holds c.stack frames) (unguarded : c.guard = .always) :
    let made := set.insert c s
    s.graph.Extends made.2.graph ∧ made.2.Joined full ∧
      Represents full made.2.graph made.1 (A.add c.alt c.state frames) := by
  have sameKey (c' : Configuration) (mem : c' ∈ set.toList) : c.sameKey c' = true ↔ c'.key = c.key := by
    rw [Configuration.sameKey, unguarded, h.unguarded c' mem, Configuration.key, Configuration.key,
      Prod.mk.injEq, eq_comm (a := c'.alt), eq_comm (a := c'.state)]
    simp [and_comm]
  unfold ConfigurationSet.insert ConfigurationSet.add
  simp only [h.unordered, Bool.false_eq_true, if_false, h.fullContext]
  split
  case h_1 missing =>
      refine ⟨.refl _, joined, h.push joined.tidy rfl rfl rfl holds unguarded ?_⟩
      intro c' mem same
      have none := Array.findIdx?_eq_none_iff.1 missing c' (Array.mem_toList_iff.1 mem)
      rw [(sameKey c' mem).2 same] at none
      cases none
  case h_2 k found =>
      obtain ⟨inside, matching, -⟩ := Array.findIdx?_eq_some_iff_getElem.1 found
      obtain ⟨old, get⟩ : ∃ old, set.items[k]? = some old := ⟨_, Array.getElem?_eq_getElem inside⟩
      have mem : old ∈ set.toList := Array.mem_toList_iff.2 (Array.mem_of_getElem? get)
      rw [Array.getElem?_eq_some_iff.1 get |>.2] at matching
      have stacksOfOld := h.stackSet_eq mem
      have stacksOfNew := holds.stackSet_eq joined.tidy
      obtain ⟨grown, joined', present, merged⟩ := joined.merge (h.present old mem) holds.present (by
        rintro rfl
        rw [stacksOfOld, stacksOfNew]
        exact ⟨A.prefixFree_settle _ _, prefixFree_singleton frames⟩)
      rw [stacksOfNew] at merged
      simp only [get, Option.getD_some]
      exact ⟨grown, joined', h.absorb joined.tidy grown rfl rfl get ((sameKey old mem).1 matching) rfl
        present merged⟩

end Represents

end ConfigurationSet

end AdaptiveLL
