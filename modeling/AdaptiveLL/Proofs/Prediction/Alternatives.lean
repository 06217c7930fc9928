import AdaptiveLL.Prediction.Choice
import Mathlib.Data.List.Forall2
/-!
The alternatives of threads. Whatever holds of the alternatives with which threads start
holds of those that a prediction ends with, since sets of threads, tables and choices among
threads bring in no others.
-/
namespace AdaptiveLL

namespace AltSet

variable {a b : Nat} {alts : List Nat}

theorem mem_insert : a ∈ insert b alts ↔ a = b ∨ a ∈ alts := by
  induction alts with
  | nil => simp [insert]
  | cons c rest ih =>
      rw [insert]
      split
      · rw [List.mem_cons]
      · split
        · simp_all
        · rw [List.mem_cons, ih, List.mem_cons]
          exact or_left_comm

theorem mem_foldl_insert {acc : AltSet} :
    a ∈ alts.foldl (fun acc b => insert b acc) acc ↔ a ∈ acc ∨ a ∈ alts := by
  induction alts generalizing acc with
  | nil => simp
  | cons b rest ih =>
      rw [List.foldl_cons, ih, mem_insert, List.mem_cons, or_assoc]
      exact or_left_comm

theorem mem_ofList : a ∈ ofList alts ↔ a ∈ alts := by
  rw [ofList, mem_foldl_insert]
  simp

end AltSet

namespace ConfigurationSet

/-- A set is equal to itself. -/
theorem same_self (set : ConfigurationSet) : set.same set = true := by
  have pairs (cs : List Configuration) : ∀ p ∈ cs.zip cs, p.1.same p.2 = true := by
    induction cs with
    | nil => simp
    | cons c cs ih =>
        rw [List.zip_cons_cons, List.forall_mem_cons]
        exact ⟨by simp [Configuration.same], ih⟩
  simp only [same, List.all_eq_true.2 (pairs _), beq_self_eq_true, Bool.and_self]

section Same

variable {a b : ConfigurationSet}

/-- Equal sets are marked alike. -/
theorem same_marks (h : a.same b = true) :
    a.uniqueAlt = b.uniqueAlt ∧ a.conflicting = b.conflicting ∧ a.hasGuards = b.hasGuards := by
  simp only [same, Bool.and_eq_true, beq_iff_eq] at h
  obtain ⟨⟨⟨⟨-, unique⟩, conflicting⟩, guards⟩, -⟩ := h
  exact ⟨unique, conflicting, guards⟩

/-- Equal sets have the same alternatives under the same guards. -/
theorem same_guards (h : a.same b = true) :
    a.toList.map (fun c => (c.alt, c.guard)) = b.toList.map fun c => (c.alt, c.guard) := by
  simp only [same, size, Bool.and_eq_true, beq_iff_eq, List.all_eq_true] at h
  obtain ⟨⟨⟨⟨⟨⟨size, pairs⟩, -⟩, -⟩, -⟩, -⟩, -⟩ := h
  have each : List.Forall₂ (fun x y => Configuration.same x y = true) a.toList b.toList := by
    refine List.forall₂_iff_zip.2 ⟨size, fun {x y} mem => pairs (x, y) mem⟩
  rw [← List.forall₂_eq_eq_eq, List.forall₂_map_left_iff, List.forall₂_map_right_iff]
  refine each.imp fun x y equal => ?_
  simp only [Configuration.same, Bool.and_eq_true, beq_iff_eq] at equal
  obtain ⟨⟨⟨⟨⟨⟨-, alt⟩, -⟩, guard⟩, -⟩, -⟩, -⟩ := equal
  rw [alt, guard]

end Same

variable {P : Nat → Prop} {set : ConfigurationSet} {c : Configuration} {s : Stacks}

/-- The threads of the set, and what has been settled about them, are about certain
alternatives. -/
structure Within (P : Nat → Prop) (set : ConfigurationSet) : Prop where
  threads : ∀ c ∈ set.toList, P c.alt
  unique : set.uniqueAlt ≠ noAlt → P set.uniqueAlt
  conflicting : ∀ alts ∈ set.conflicting, ∀ a ∈ alts, P a

theorem Within.empty (P : Nat → Prop) (fullContext : Bool) :
    Within P ({ fullContext } : ConfigurationSet) where
  threads _ mem := by simp [toList] at mem
  unique h := absurd rfl h
  conflicting _ mem := by simp at mem

/-- Adding a thread adds it or changes the stacks of another. -/
theorem alt_of_mem_insert {c' : Configuration} (mem : c' ∈ (set.insert c s).1.toList) :
    c'.alt = c.alt ∨ ∃ old ∈ set.toList, old.alt = c'.alt := by
  unfold insert add at mem
  simp only at mem
  split at mem
  · rcases Array.mem_push.1 (Array.mem_toList_iff.1 mem) with old | rfl
    · exact .inr ⟨c', Array.mem_toList_iff.2 old, rfl⟩
    · exact .inl rfl
  · split at mem
    · exact .inr ⟨c', mem, rfl⟩
    · obtain ⟨i, get⟩ := Array.mem_iff_getElem?.1 (Array.mem_toList_iff.1 mem)
      rw [Array.getElem?_modify] at get
      split at get
      · obtain ⟨old, here, rfl⟩ := Option.map_eq_some_iff.1 get
        exact .inr ⟨old, Array.mem_toList_iff.2 (Array.mem_of_getElem? here), rfl⟩
      · exact .inr ⟨c', Array.mem_toList_iff.2 (Array.mem_of_getElem? get), rfl⟩

theorem uniqueAlt_insert : (set.insert c s).1.uniqueAlt = set.uniqueAlt := by
  unfold insert add
  simp only
  split
  · rfl
  · split <;> rfl

theorem conflicting_insert : (set.insert c s).1.conflicting = set.conflicting := by
  unfold insert add
  simp only
  split
  · rfl
  · split <;> rfl

theorem Within.insert (h : set.Within P) (thread : P c.alt) : (set.insert c s).1.Within P where
  threads c' mem := by
    rcases alt_of_mem_insert mem with same | ⟨old, mem, same⟩
    · rwa [same]
    · exact same ▸ h.threads old mem
  unique := by
    rw [uniqueAlt_insert]
    exact h.unique
  conflicting := by
    rw [conflicting_insert]
    exact h.conflicting

theorem Within.agreed (h : set.Within P) (agree : set.agreedAlt ≠ noAlt) : P set.agreedAlt := by
  unfold agreedAlt at agree ⊢
  split
  case h_1 eq => simp [eq] at agree
  case h_2 first rest eq =>
      rw [eq] at agree
      simp only at agree ⊢
      split at agree
      case isFalse => exact absurd rfl agree
      case isTrue all =>
          have mem : first ∈ set.toList.map Configuration.alt := eq ▸ List.mem_cons_self
          obtain ⟨c, thread, rfl⟩ := List.mem_map.1 mem
          rw [if_pos all]
          exact h.threads c thread

/-- The groups are about the alternatives of the threads, and none is empty. -/
theorem group_spec (lt : Nat × Nat → Nat × Nat → Bool) (key : Nat × Nat) {alt : Nat}
    {groups : List ((Nat × Nat) × AltSet)} (thread : P alt)
    (h : ∀ g ∈ groups, g.2 ≠ [] ∧ ∀ a ∈ g.2, P a) :
    group lt key alt groups ≠ [] ∧ ∀ g ∈ group lt key alt groups, g.2 ≠ [] ∧ ∀ a ∈ g.2, P a := by
  induction groups with
  | nil => simpa [group] using thread
  | cons head rest ih =>
      obtain ⟨k, alts⟩ := head
      obtain ⟨⟨some, all⟩, others⟩ := List.forall_mem_cons.1 h
      obtain ⟨-, later⟩ := ih others
      rw [group]
      split
      · refine ⟨List.cons_ne_nil _ _, List.forall_mem_cons.2 ⟨⟨?_, fun a mem => ?_⟩, others⟩⟩
        · exact List.ne_nil_of_mem (AltSet.mem_insert.2 (.inl rfl))
        · rcases AltSet.mem_insert.1 mem with rfl | mem
          · exact thread
          · exact all a mem
      · split
        · refine ⟨List.cons_ne_nil _ _, List.forall_mem_cons.2 ⟨?_, h⟩⟩
          exact ⟨List.cons_ne_nil _ _, by simpa using thread⟩
        · exact ⟨List.cons_ne_nil _ _, List.forall_mem_cons.2 ⟨⟨some, all⟩, later⟩⟩

theorem groupBy_spec (key : Configuration → Nat × Nat) (h : set.Within P)
    (some : set.isEmpty = false) :
    set.groupBy key ≠ [] ∧ ∀ g ∈ set.groupBy key, g.2 ≠ [] ∧ ∀ a ∈ g.2, P a := by
  suffices ∀ (threads : List Configuration) (groups : List ((Nat × Nat) × AltSet)),
      (∀ c ∈ threads, P c.alt) → (∀ g ∈ groups, g.2 ≠ [] ∧ ∀ a ∈ g.2, P a) →
      (groups ≠ [] ∨ threads ≠ []) →
      let all := threads.foldl (fun acc c => group keyLt (key c) c.alt acc) groups
      all ≠ [] ∧ ∀ g ∈ all, g.2 ≠ [] ∧ ∀ a ∈ g.2, P a from
    this set.toList [] h.threads (by simp) (.inr (by simpa [isEmpty, toList] using some))
  intro threads
  induction threads with
  | nil => exact fun groups _ all some => ⟨some.resolve_right (by simp), all⟩
  | cons c rest ih =>
      intro groups threads all _
      obtain ⟨thread, threads⟩ := List.forall_mem_cons.1 threads
      obtain ⟨some, all⟩ := group_spec keyLt (key c) thread all
      exact ih _ threads all (.inl some)

theorem altSubsets_spec (h : set.Within P) (some : set.isEmpty = false) :
    set.altSubsets ≠ [] ∧ ∀ alts ∈ set.altSubsets, alts ≠ [] ∧ ∀ a ∈ alts, P a := by
  obtain ⟨groups, all⟩ := groupBy_spec (fun c => (c.state, c.stack)) h some
  refine ⟨by simpa [altSubsets] using groups, fun alts mem => ?_⟩
  obtain ⟨g, listed, rfl⟩ := List.mem_map.1 mem
  exact all g listed

end ConfigurationSet

namespace Conflict

variable {P : Nat → Prop} {subsets : List AltSet}

/-- The alternatives in conflict. -/
theorem alts_spec (nonempty : subsets ≠ []) (all : ∀ alts ∈ subsets, alts ≠ [] ∧ ∀ a ∈ alts, P a) :
    alts subsets ≠ [] ∧ ∀ a ∈ alts subsets, P a := by
  constructor
  · obtain ⟨first, rest, rfl⟩ := List.exists_cons_of_ne_nil nonempty
    obtain ⟨a, more, eq⟩ := List.exists_cons_of_ne_nil (all first (.head _)).1
    refine List.ne_nil_of_mem (a := a) (AltSet.mem_ofList.2 ?_)
    simp [eq]
  · intro a mem
    obtain ⟨alts, mem, here⟩ := List.mem_flatten.1 (AltSet.mem_ofList.1 mem)
    exact (all alts mem).2 a here

theorem viableAlt_of_ne (all : ∀ alts ∈ subsets, ∀ a ∈ alts, P a)
    (viable : viableAlt subsets ≠ noAlt) : P (viableAlt subsets) := by
  unfold viableAlt at viable ⊢
  split
  case h_1 eq => simp [eq] at viable
  case h_2 first rest eq =>
      rw [eq] at viable
      simp only at viable
      split at viable
      case isFalse => exact absurd rfl viable
      case isTrue same =>
          rw [if_pos same]
          have mem : first ∈ subsets.filterMap List.head? := eq ▸ List.mem_cons_self
          obtain ⟨alts, mem, head⟩ := List.mem_filterMap.1 mem
          exact all alts mem first (List.mem_of_mem_head? head)

/-- If all subsets are equal, their least alternative is viable. -/
theorem viableAlt_of_allEqual (nonempty : subsets ≠ [])
    (all : ∀ alts ∈ subsets, alts ≠ [] ∧ ∀ a ∈ alts, P a) (equal : allEqual subsets = true) :
    P (viableAlt subsets) := by
  obtain ⟨first, rest, rfl⟩ := List.exists_cons_of_ne_nil nonempty
  obtain ⟨a, more, rfl⟩ := List.exists_cons_of_ne_nil (all first (.head _)).1
  have same : ∀ alts ∈ rest, alts = a :: more := by simpa [allEqual] using equal
  have heads : rest.filterMap List.head? = rest.map fun _ => a := by
    clear all nonempty equal
    induction rest with
    | nil => rfl
    | cons alts rest ih =>
        rw [List.filterMap_cons, same alts (.head _), ih fun alts mem => same alts (.tail _ mem)]
        rfl
  have viable : viableAlt ((a :: more) :: rest) = a := by
    simp [viableAlt, heads]
  rw [viable]
  exact (all _ (.head _)).2 a (.head _)

end Conflict

namespace TableState

variable {P : Nat → Prop} {d : TableState}

/-- The state is about certain alternatives, and if it accepts, it predicts one of them. -/
structure Within (P : Nat → Prop) (d : TableState) : Prop where
  configs : d.configs.Within P
  guarded : ∀ guards ∈ d.guards, ∀ g ∈ guards, P g.2
  predicts : d.isAccept = true → d.guards = none → P d.prediction

end TableState

namespace PredictionTable

variable {P : Nat → Nat → Prop} {Q : TableState → Prop} {t : PredictionTable} {d : TableState}

/-- What holds of every state of a table. -/
def All (Q : TableState → Prop) (t : PredictionTable) : Prop :=
  ∀ d ∈ t.states, Q d

theorem All.get (h : t.All Q) {number : Nat} (here : t.states[number]? = some d) : Q d :=
  h d (Array.mem_of_getElem? here)

/-- A new state is kept under a number of the table. -/
theorem All.addState (h : t.All Q) (new : ∀ number generation, Q { d with number, generation }) :
    (t.addState d).2.All Q ∧ Q (t.addState d).1 := by
  unfold PredictionTable.addState
  split
  case h_1 existing found => exact ⟨h, h existing (Array.mem_of_find?_eq_some found)⟩
  case h_2 =>
      refine ⟨fun d' mem => ?_, new _ _⟩
      rcases Array.mem_push.1 mem with old | rfl
      · exact h d' old
      · exact new _ _

theorem All.edge (h : t.All Q) {source : TableState} {symbol : Symbol}
    (found : t.edge? source symbol = some (.state d)) : Q d := by
  unfold edge? at found
  split at found
  case isFalse => cases found
  case isTrue =>
      split at found
      · cases found
      · cases found
      · obtain ⟨d', here, eq⟩ := Option.map_eq_some_iff.1 found
        exact TableTarget.state.inj eq ▸ h.get here

theorem All.start (h : t.All Q) (found : t.start? = some d) : Q d := by
  obtain ⟨number, -, here⟩ := Option.bind_eq_some_iff.1 found
  exact h.get here

theorem All.precedenceStart (h : t.All Q) {level : Int} (found : t.precedenceStart? level = some d) :
    Q d := by
  obtain ⟨number, -, here⟩ := Option.bind_eq_some_iff.1 found
  exact h.get here

/-- The states of a table are about alternatives of its decision state. -/
def Within (P : Nat → Nat → Prop) (t : PredictionTable) : Prop :=
  t.All (·.Within (P t.startState))

@[simp] theorem startState_addState : (t.addState d).2.startState = t.startState := by
  unfold addState
  split <;> rfl

theorem Within.addState (h : t.Within P) (new : d.Within (P t.startState)) :
    (t.addState d).2.Within P ∧ (t.addState d).1.Within (P t.startState) := by
  rw [Within, startState_addState]
  exact All.addState h fun _ _ => ⟨new.configs, new.guarded, new.predicts⟩

theorem addEdge_states (source : TableState) (symbol : Symbol) (target : TableTarget) :
    (t.addEdge source symbol target).states = t.states ∧
      (t.addEdge source symbol target).startState = t.startState := by
  unfold addEdge
  cases target <;> simp only <;> split <;> (try split) <;> exact ⟨rfl, rfl⟩

theorem setStart_states (s : TableState) :
    (t.setStart s).states = t.states ∧ (t.setStart s).startState = t.startState := by
  unfold setStart
  split <;> exact ⟨rfl, rfl⟩

theorem setPrecedenceStart_states (level : Int) (s : TableState) :
    (t.setPrecedenceStart level s).states = t.states ∧
      (t.setPrecedenceStart level s).startState = t.startState := by
  unfold setPrecedenceStart
  split <;> exact ⟨rfl, rfl⟩

theorem Within.of_states {t' : PredictionTable} (h : t.Within P)
    (same : t'.states = t.states ∧ t'.startState = t.startState) : t'.Within P := by
  rwa [Within, All, same.1, same.2]

end PredictionTable

/-- The decision states of the tables, in the order of the decisions. -/
def Tables.starts (t : Tables) : Array Nat :=
  t.tables.map PredictionTable.startState

/-- Every state of every table is about alternatives of its decision. -/
def Tables.Within (P : Nat → Nat → Prop) (t : Tables) : Prop :=
  ∀ table ∈ t.tables, table.Within P

/-- Any tables are about some alternatives. -/
theorem Tables.within_true (t : Tables) : t.Within fun _ _ => True :=
  fun _ _ _ _ => ⟨⟨fun _ _ => trivial, fun _ => trivial, fun _ _ _ _ => trivial⟩,
    fun _ _ _ _ => trivial, fun _ _ => trivial⟩

namespace Prediction

variable {P : Nat → Prop} {d : TableState}

theorem guardsOf_spec {alts : AltSet} {configs : ConfigurationSet} {count : Nat}
    {guards : List (Guard × Nat)} (h : guardsOf alts configs count = some guards)
    (all : ∀ a, 1 ≤ a → a ≤ count → P a) : ∀ g ∈ guards, P g.2 := by
  unfold guardsOf at h
  simp only [Option.ite_none_left_eq_some, Option.some.injEq] at h
  obtain ⟨-, rfl⟩ := h
  intro g mem
  obtain ⟨a, listed, rfl⟩ := List.mem_map.1 mem
  have range := (List.mem_filter.1 listed).2
  simp only [Bool.and_eq_true, decide_eq_true_eq] at range
  exact all a range.1 range.2

theorem withGuards_within {count : Nat} (all : ∀ a, 1 ≤ a → a ≤ count → P a)
    (h : d.configs.Within P) (unguarded : d.guards = none)
    (some : d.configs.uniqueAlt = noAlt → ∃ alts ∈ d.configs.conflicting, alts ≠ []) :
    (withGuards count d).Within P := by
  unfold withGuards
  extract_lets alts
  split
  case h_1 guards found =>
      exact {
        configs := h
        guarded := fun gs mem => Option.some.inj mem ▸ guardsOf_spec found all
        predicts := fun _ none => by simp at none }
  case h_2 =>
      refine {
        configs := h
        guarded := fun _ mem => absurd (unguarded.symm.trans mem) (by simp)
        predicts := fun _ _ => ?_ }
      by_cases unique : d.configs.uniqueAlt = noAlt
      · obtain ⟨found, mem, ne⟩ := some unique
        obtain ⟨a, rest, rfl⟩ := List.exists_cons_of_ne_nil ne
        have eq : d.configs.conflicting = Option.some (a :: rest) := mem
        have first : alts.head?.getD noAlt = a := by simp [alts, unique, eq]
        exact first ▸ h.conflicting _ mem a (.head _)
      · have first : alts.head?.getD noAlt = d.configs.uniqueAlt := by simp [alts, unique]
        exact first ▸ h.unique unique

theorem finishedAlt_of_ne {n : Network} {graph : StackGraph} {threads : List Configuration}
    (h : ∀ c ∈ threads, P c.alt) (found : finishedAlt n graph threads ≠ noAlt) :
    P (finishedAlt n graph threads) := by
  unfold finishedAlt at found ⊢
  cases first : (AltSet.ofList ((threads.filter (hasFinished n graph)).map
      Configuration.alt)).head? with
  | none => simp [first] at found
  | some a =>
      obtain ⟨c, mem, rfl⟩ := List.mem_map.1 (AltSet.mem_ofList.1 (List.mem_of_mem_head? first))
      exact h c (List.mem_of_mem_filter mem)

end Prediction

end AdaptiveLL
