import AdaptiveLL.Proofs.Lexer.Table
import AdaptiveLL.Proofs.Network.Settling
/-!
Threads and places. In a lexer without predicates, precedence edges, non-greedy decisions and
labels for the end of the input, the threads after some characters stand at the places that
are reached over these characters, no more and no fewer, ordered by the edges of the mode.
-/
namespace AdaptiveLL

/-- Whether the edge asks for a level of precedence. -/
def Transition.isLevel : Transition → Bool
  | precedence .. => true
  | _ => false

namespace Network

/-- A lexer that keeps to its grammar alone: without predicates, levels of precedence,
non-greedy decisions and labels for the end of the input. -/
structure IsPlain (n : Network) : Prop where
  unguarded : n.IsUnguarded
  unleveled : ∀ s ∈ n.states, ∀ e ∈ s.transitions, e.isLevel = false
  greedy : ∀ s ∈ n.states, s.isDecision = true → s.nonGreedy = false
  noEofLabel : ∀ s ∈ n.states, ∀ e ∈ s.transitions, e.reads Symbol.eof 0 Symbol.lastChar = false

instance (n : Network) : Decidable n.IsPlain :=
  decidable_of_iff
    (n.IsUnguarded ∧ (∀ s ∈ n.states, ∀ e ∈ s.transitions, e.isLevel = false) ∧
      (∀ s ∈ n.states, s.isDecision = true → s.nonGreedy = false) ∧
      ∀ s ∈ n.states, ∀ e ∈ s.transitions, e.reads Symbol.eof 0 Symbol.lastChar = false)
    ⟨fun ⟨h₁, h₂, h₃, h₄⟩ => ⟨h₁, h₂, h₃, h₄⟩, fun ⟨h₁, h₂, h₃, h₄⟩ => ⟨h₁, h₂, h₃, h₄⟩⟩

/-- The places where threads are kept that silent moves reach from `p`. -/
def settled (n : Network) (p : Place) : Set Place :=
  {p' | n.Keeps p' ∧ Relation.ReflTransGen n.Silent p p'}

/-- The places where threads are kept that are reached from `p` by reading a character and then
by silent moves. -/
def advanced (n : Network) (x : Symbol) (p : Place) : Set Place :=
  {p'' | ∃ p', n.Reads 0 Symbol.lastChar x p p' ∧ p'' ∈ n.settled p'}

variable {n : Network} {low high x : Symbol} {w : List Symbol} {p p' : Place}

/-- On the way to a place where a thread is kept, one is kept before the next character. -/
theorem Run.exists_keeps (run : n.Run low high p w p') (keeps : n.Keeps p') :
    ∃ p₁, Relation.ReflTransGen n.Silent p p₁ ∧ n.Keeps p₁ := by
  induction run with
  | refl p => exact ⟨p, .refl, keeps⟩
  | silent first _ ih =>
      obtain ⟨p₁, path, keeps₁⟩ := ih keeps
      exact ⟨p₁, .head first path, keeps₁⟩
  | @read p _ _ _ _ first => exact ⟨p, .refl, first.keeps⟩

end Network

namespace Thread

open Relation (ReflTransGen)

variable {n : Network} {t t' : Thread} {fuel : Nat} {crossEof accepted b : Bool}
  {new : List Thread}

/-- A thread crosses the edges of a plain lexer that are crossed silently. -/
theorem cross_plain (plain : n.IsPlain) {s : State} (here : n.states[t.state]? = some s)
    {e : Transition} (mem : e ∈ s.transitions) (crossEof : Bool) :
    (t.cross n crossEof e).map place = e.silently? t.frames := by
  have state := Array.mem_of_getElem? here
  have unread := plain.noEofLabel s state e mem
  cases e with
  | precedence => cases plain.unleveled s state _ mem
  | predicate => cases plain.unguarded s state _ mem
  | action target rule index contextual =>
      simp only [cross]
      split <;> rfl
  | call | epsilon | notSet | wildcard => rfl
  | atom | range | set => simp [cross, unread, Transition.silently?, Transition.isEpsilon]

theorem isNonGreedy_plain (plain : n.IsPlain) (q : Nat) : n.isNonGreedy q = false := by
  rw [Network.isNonGreedy]
  cases here : n.states[q]? with
  | none => rfl
  | some s =>
      cases decision : s.isDecision with
      | false => simp [decision]
      | true => simp [decision, plain.greedy s (Array.mem_of_getElem? here) decision]

/-- The thread was started for this alternative, and did not go through a non-greedy loop. -/
def IsOf (alt : Nat) (t : Thread) : Prop :=
  t.alt = alt ∧ t.passedNonGreedy = false

theorem IsOf.move {alt : Nat} (plain : n.IsPlain) (h : t.IsOf alt) (q : Nat) :
    (t.move n q).IsOf alt :=
  ⟨h.1, by simp [Thread.move, h.2, isNonGreedy_plain plain]⟩

theorem IsOf.cross {alt : Nat} (plain : n.IsPlain) (h : t.IsOf alt) {e : Transition}
    (crossed : t.cross n crossEof e = some t') : t'.IsOf alt := by
  have moved (q : Nat) := h.move plain q
  cases e <;> simp only [Thread.cross] at crossed <;> (try split at crossed) <;>
    first
      | (obtain rfl := Option.some.inj crossed; exact moved _)
      | cases crossed

/-- The threads, all of one alternative, stand at exactly these places. -/
structure StandAt (alt : Nat) (places : Set Place) (ts : List Thread) : Prop where
  sound : ∀ t ∈ ts, t.IsOf alt ∧ t.place ∈ places
  complete : ∀ p ∈ places, ∃ t ∈ ts, t.place = p

theorem standAt_of_end {alt : Nat} {s : State} (isOf : t.IsOf alt)
    (here : n.states[t.state]? = some s) (stop : s.isRuleStop = true) (bottom : t.frames = []) :
    StandAt alt (n.settled t.place) [t] where
  sound t' mem := by
    obtain rfl := List.mem_singleton.1 mem
    exact ⟨isOf, ⟨s, here, .inl ⟨stop, bottom⟩⟩, .refl⟩
  complete p' := by
    rintro ⟨-, path⟩
    rcases ReflTransGen.cases_head path with rfl | ⟨p, move, -⟩
    · exact ⟨t, .head _, rfl⟩
    · cases bottom.symm.trans (move.of_stop here stop)

theorem standAt_of_back {alt : Nat} {s : State} {resume : Nat} {frames : List Nat}
    (here : n.states[t.state]? = some s) (stop : s.isRuleStop = true)
    (called : t.frames = resume :: frames) (h : StandAt alt (n.settled (resume, frames)) new) :
    StandAt alt (n.settled t.place) new where
  sound t' mem := by
    obtain ⟨isOf, keeps, path⟩ := h.sound t' mem
    refine ⟨isOf, keeps, .head ?_ path⟩
    rw [place, called]
    exact .back here stop
  complete p' := by
    rintro ⟨keeps, path⟩
    rcases ReflTransGen.cases_head path with rfl | ⟨p, move, rest⟩
    · obtain ⟨s', here', kept⟩ := keeps
      obtain rfl := Option.some.inj (here.symm.trans here')
      simp [stop, place, called] at kept
    · obtain ⟨rfl, rfl⟩ := List.cons.inj (called.symm.trans (move.of_stop here stop))
      exact h.complete p' ⟨keeps, rest⟩

/-- What a closure inside of a rule has found after some of the edges. -/
structure PartlySettled (n : Network) (alt : Nat) (t : Thread) (edges : List Transition)
    (new : List Thread) : Prop where
  sound : ∀ t' ∈ new, t'.IsOf alt ∧ t'.place ∈ n.settled t.place
  own : n.Keeps t.place → t ∈ new
  complete : ∀ e ∈ edges, ∀ p, e.silently? t.frames = some p →
    ∀ p' ∈ n.settled p, ∃ t' ∈ new, t'.place = p'

theorem PartlySettled.standAt {alt : Nat} {s : State} (here : n.states[t.state]? = some s)
    (inside : s.isRuleStop = false) (h : PartlySettled n alt t s.transitions new) :
    StandAt alt (n.settled t.place) new where
  sound := h.sound
  complete p' := by
    rintro ⟨keeps, path⟩
    rcases ReflTransGen.cases_head path with rfl | ⟨p, move, rest⟩
    · exact ⟨t, h.own keeps, rfl⟩
    · obtain ⟨e, mem, cross⟩ := move.of_inside here inside
      exact h.complete e mem p cross p' ⟨keeps, rest⟩

theorem PartlySettled.skip {alt : Nat} {edges : List Transition} {e : Transition}
    (reads : e.silently? t.frames = none) (h : PartlySettled n alt t edges new) :
    PartlySettled n alt t (edges ++ [e]) new where
  sound := h.sound
  own := h.own
  complete e' mem p cross := by
    rcases List.mem_append.1 mem with old | last
    · exact h.complete e' old p cross
    · obtain rfl := List.mem_singleton.1 last
      cases reads.symm.trans cross

theorem PartlySettled.edge {alt : Nat} {s : State} (here : n.states[t.state]? = some s)
    (inside : s.isRuleStop = false) {edges : List Transition} {e : Transition}
    (mem : e ∈ s.transitions) {p : Place} (cross : e.silently? t.frames = some p)
    {new' : List Thread} (h : PartlySettled n alt t edges new)
    (settles : StandAt alt (n.settled p) new') :
    PartlySettled n alt t (edges ++ [e]) (new ++ new') where
  sound t' mem' := by
    rcases List.mem_append.1 mem' with old | fresh
    · exact h.sound t' old
    · obtain ⟨isOf, keeps, path⟩ := settles.sound t' fresh
      exact ⟨isOf, keeps, .head (.edge here inside mem cross) path⟩
  own keeps := List.mem_append_left _ (h.own keeps)
  complete e' mem' q cross' p' reached := by
    rcases List.mem_append.1 mem' with old | last
    · obtain ⟨t', found, eq⟩ := h.complete e' old q cross' p' reached
      exact ⟨t', List.mem_append_left _ found, eq⟩
    · obtain rfl := List.mem_singleton.1 last
      obtain rfl := Option.some.inj (cross.symm.trans cross')
      obtain ⟨t', found, eq⟩ := settles.complete p' reached
      exact ⟨t', List.mem_append_right _ found, eq⟩

/-- The threads that a thread becomes stand at the places that it reaches. -/
theorem settle_standAt {alt : Nat} (plain : n.IsPlain) (isOf : t.IsOf alt)
    (h : t.settle n crossEof fuel accepted = some (b, new)) :
    StandAt alt (n.settled t.place) new := by
  induction fuel generalizing t accepted b new with
  | zero => cases h
  | succ fuel ih =>
      rw [settle] at h
      obtain ⟨s, here, h⟩ := Option.bind_eq_some_iff.1 h
      cases stop : s.isRuleStop with
      | true =>
          rw [if_pos stop] at h
          cases called : t.frames with
          | nil =>
              rw [called] at h
              cases h
              exact standAt_of_end isOf here stop called
          | cons resume frames =>
              rw [called] at h
              have isOf' : (t.back n resume frames).IsOf alt := isOf.move plain resume
              exact standAt_of_back here stop called (ih isOf' h)
      | false =>
          rw [if_neg (by simp [stop])] at h
          refine PartlySettled.standAt here stop (Option.foldlM_some (P := fun edges b =>
            PartlySettled n alt t edges b.2) s.transitions ⟨?_, ?_, ?_⟩ ?_ h)
          · intro t' mem
            split at mem
            case isTrue kept =>
                obtain rfl := List.mem_singleton.1 mem
                exact ⟨isOf, ⟨s, here, .inr ⟨stop, by simp_all⟩⟩, .refl⟩
            case isFalse => cases mem
          · rintro ⟨s', here', kept⟩
            obtain rfl := Option.some.inj (here.symm.trans here')
            have reads : s.isEpsilonOnly = false := by simpa [stop] using kept
            simp [reads, isOf.2]
          · simp
          · rintro before e behind ⟨a, found⟩ ⟨a', found'⟩ all partly step
            have mem : e ∈ s.transitions := by simp [all]
            have silently := cross_plain plain here mem crossEof
            cases crossed : t.cross n crossEof e with
            | none =>
                rw [crossed] at step silently
                obtain ⟨rfl, rfl⟩ := Prod.mk.inj (Option.some.inj step)
                exact partly.skip silently.symm
            | some t' =>
                rw [crossed] at step silently
                obtain ⟨⟨a'', new'⟩, settled, step⟩ := Option.bind_eq_some_iff.1 step
                obtain ⟨rfl, rfl⟩ := Prod.mk.inj (Option.some.inj step)
                exact partly.edge here stop mem silently.symm (ih (isOf.cross plain crossed) settled)

/-- A closure comes to its end if it may be deeper than the silent moves go. -/
theorem settle_isSome (plain : n.IsPlain) (wf : n.WellFormed) {depth : Nat}
    (inRange : n.InRange t.place) (settles : n.SettlesWithin depth t.place) (enough : depth < fuel)
    (crossEof accepted : Bool) : (t.settle n crossEof fuel accepted).isSome := by
  induction fuel generalizing t depth accepted with
  | zero => cases enough
  | succ fuel ih =>
      obtain ⟨s, here⟩ : ∃ s, n.states[t.state]? = some s :=
        ⟨_, Array.getElem?_eq_getElem inRange.1⟩
      have goOn (t' : Thread) (move : n.Silent t.place t'.place) (accepted : Bool) :
          (t'.settle n crossEof fuel accepted).isSome := by
        cases depth with
        | zero => exact absurd move (settles _)
        | succ depth =>
            exact ih (inRange.silent wf move) (settles _ move) (Nat.lt_of_succ_lt_succ enough) accepted
      rw [settle, here, Option.bind_eq_bind, Option.bind_some]
      cases stop : s.isRuleStop with
      | true =>
          rw [if_pos rfl]
          cases called : t.frames with
          | nil => rfl
          | cons resume frames =>
              refine goOn (t.back n resume frames) ?_ accepted
              rw [place, called]
              exact .back here stop
      | false =>
          rw [if_neg Bool.false_ne_true]
          refine Option.foldlM_isSome (fun e mem => ?_) _
          rintro ⟨accepted, found⟩
          have silently := cross_plain plain here mem crossEof
          cases crossed : t.cross n crossEof e with
          | none => rfl
          | some t' =>
              rw [crossed] at silently
              obtain ⟨r, settled⟩ := Option.isSome_iff_exists.1
                (goOn _ (.edge here stop mem silently.symm) accepted)
              simp [settled]

theorem advance_unread {x : Symbol} {offset : Nat} {es : List Transition}
    (unread : ∀ e ∈ es, e.reads x 0 Symbol.lastChar = false) :
    t.advance n fuel offset x accepted es = some (false, []) := by
  induction es with
  | nil => rfl
  | cons e es ih =>
      rw [advance, if_neg (by simp [unread e (.head _)])]
      exact ih fun e' mem => unread e' (.tail _ mem)

theorem advance_single {x : Symbol} {offset : Nat} {e : Transition}
    (reads : e.reads x 0 Symbol.lastChar = true) :
    t.advance n fuel offset x accepted [e] =
      (t.read n offset e).settle n (x == Symbol.eof) fuel accepted := by
  rw [advance, if_pos reads]
  cases settled : (t.read n offset e).settle n (x == Symbol.eof) fuel accepted with
  | none => rfl
  | some r =>
      obtain ⟨b, new⟩ := r
      cases b <;> simp [advance]

/-- A state with an edge that reads has no other edge. -/
theorem single_of_reads (wf : n.WellFormed) {q : Nat} {s : State} {x : Symbol} {e : Transition}
    (here : n.states[q]? = some s) (mem : e ∈ s.transitions)
    (reads : e.reads x 0 Symbol.lastChar = true) : s.transitions = [e] := by
  have short := wf.reads_alone here (Transition.isEpsilonOnly_of_reads mem reads)
  obtain ⟨e', eq⟩ := List.length_eq_one_iff.1 (Nat.le_antisymm short (List.length_pos_of_mem mem))
  rw [eq] at mem ⊢
  rw [List.mem_singleton.1 mem]

/-- What a thread becomes by reading stands at the places that reading leads to. -/
theorem advance_standAt {alt : Nat} {s : State} {x : Symbol} {offset : Nat} (plain : n.IsPlain)
    (wf : n.WellFormed) (isOf : t.IsOf alt) (keeps : n.Keeps t.place)
    (here : n.states[t.state]? = some s)
    (h : t.advance n fuel offset x accepted s.transitions = some (b, new)) :
    StandAt alt (n.advanced x t.place) new := by
  have bottom : s.isRuleStop = true → t.frames = [] := by
    obtain ⟨s', here', kept⟩ := keeps
    obtain rfl := Option.some.inj (here.symm.trans here')
    intro stop
    change t.place.2 = []
    simpa [stop] using kept
  by_cases reads : ∃ e ∈ s.transitions, e.reads x 0 Symbol.lastChar = true
  · obtain ⟨e, mem, reads⟩ := reads
    have single := single_of_reads wf here mem reads
    rw [single, advance_single reads] at h
    have isOf' : (t.read n offset e).IsOf alt := isOf.move plain e.target
    have settles := settle_standAt plain isOf' h
    refine ⟨fun t' mem' => ?_, ?_⟩
    · obtain ⟨isOf, reached⟩ := settles.sound t' mem'
      exact ⟨isOf, _, .edge here bottom mem reads, reached⟩
    · rintro p'' ⟨p', read, reached⟩
      cases read with
      | edge here' _ mem' reads' =>
          obtain rfl := Option.some.inj (here.symm.trans here')
          obtain rfl := List.mem_singleton.1 (single ▸ mem')
          exact settles.complete p'' reached
  · have unread : ∀ e ∈ s.transitions, e.reads x 0 Symbol.lastChar = false := by simpa using reads
    rw [advance_unread unread] at h
    obtain ⟨-, rfl⟩ := Prod.mk.inj (Option.some.inj h)
    refine ⟨by simp, ?_⟩
    rintro p'' ⟨p', read, -⟩
    cases read with
    | edge here' _ mem reads' =>
        obtain rfl := Option.some.inj (here.symm.trans here')
        cases (unread _ mem).symm.trans reads'

/-- The threads of one alternative come after those of the alternatives before it. -/
theorem sorted_foldl_enlist {alt : Nat} (ts : List Thread)
    (sorted : ts.Pairwise fun t t' => t.alt ≤ t'.alt) (before : ∀ t ∈ ts, t.alt ≤ alt)
    (isOf : ∀ t ∈ new, t.alt = alt) :
    (new.foldl enlist ts).Pairwise fun t t' => t.alt ≤ t'.alt := by
  induction new generalizing ts with
  | nil => exact sorted
  | cons t' new ih =>
      have isOf' := fun t mem => isOf t (.tail t' mem)
      rw [List.foldl_cons, enlist]
      split
      · exact ih ts sorted before isOf'
      · have last : t'.alt = alt := isOf t' (.head _)
        refine ih _ (List.pairwise_append.2 ⟨sorted, List.pairwise_singleton .., ?_⟩) ?_ isOf'
        · rintro t mem _ mem'
          obtain rfl := List.mem_singleton.1 mem'
          exact last ▸ before t mem
        · rintro t mem
          rcases List.mem_append.1 mem with old | new
          · exact before t old
          · exact (congrArg Thread.alt (List.mem_singleton.1 new)).le.trans last.le

/-- The threads stand at the places of some items, each with the alternative of its item and in
the order of the alternatives. -/
structure Arranged {α : Type} (xs : List α) (alt : α → Nat) (places : α → Set Place)
    (ts : List Thread) : Prop where
  sorted : ts.Pairwise fun t t' => t.alt ≤ t'.alt
  sound : ∀ t ∈ ts, ∃ x ∈ xs, t.IsOf (alt x) ∧ t.place ∈ places x
  complete : ∀ x ∈ xs, ∀ p ∈ places x, ∃ t ∈ ts, t.alt = alt x ∧ t.place = p

section Arranged

variable {α : Type} {xs : List α} {x : α} {alt : α → Nat} {places : α → Set Place} {ts : List Thread}

theorem arranged_nil : Arranged ([] : List α) alt places [] :=
  ⟨.nil, by simp, by simp⟩

/-- Threads of one more place come behind those of the places before. -/
theorem Arranged.append (h : Arranged xs alt places ts) (before : ∀ y ∈ xs, alt y ≤ alt x)
    (new_standAt : StandAt (alt x) (places x) new) :
    Arranged (xs ++ [x]) alt places (new.foldl enlist ts) where
  sorted := by
    refine sorted_foldl_enlist ts h.sorted (fun t mem => ?_) fun t mem => (new_standAt.sound t mem).1.1
    obtain ⟨y, memY, isOf, -⟩ := h.sound t mem
    exact isOf.1.trans_le (before y memY)
  sound t mem := by
    rcases (mem_foldl_enlist ts).1 mem with old | fresh
    · obtain ⟨y, memY, stands⟩ := h.sound t old
      exact ⟨y, List.mem_append_left _ memY, stands⟩
    · exact ⟨x, by simp, new_standAt.sound t fresh⟩
  complete y memY p memP := by
    rcases List.mem_append.1 memY with old | last
    · obtain ⟨t, mem, stands⟩ := h.complete y old p memP
      exact ⟨t, (mem_foldl_enlist ts).2 (.inl mem), stands⟩
    · obtain rfl := List.mem_singleton.1 last
      obtain ⟨t, mem, eq⟩ := new_standAt.complete p memP
      exact ⟨t, (mem_foldl_enlist ts).2 (.inr mem), (new_standAt.sound t mem).1.1, eq⟩

end Arranged

/-- The threads stand at the places that the edges of a mode reach over the characters. -/
def Denotes (n : Network) (edges : List Transition) (w : List Symbol) (ts : List Thread) : Prop :=
  Arranged edges.zipIdx (fun e => e.2 + 1)
    (fun e => {p | n.Keeps p ∧ n.Run 0 Symbol.lastChar (e.1.target, []) w p}) ts

variable {ts ts' : List Thread} {w : List Symbol} {x : Symbol} {start : Nat} {s : State}

/-- In a list with indices, the indices before an item are smaller than its own. -/
private theorem lt_of_zipIdx {α : Type} {xs : List α} {before behind : List (α × Nat)}
    {a : α × Nat} (all : xs.zipIdx = before ++ a :: behind) {a' : α × Nat} (mem : a' ∈ before) :
    a'.2 < a.2 := by
  have ascending : (xs.zipIdx.map Prod.snd).Pairwise (· < ·) := by
    rw [List.zipIdx_map_snd]
    exact List.pairwise_lt_range'
  rw [all, List.map_append, List.map_cons, List.pairwise_append] at ascending
  exact ascending.2.2 _ (List.mem_map_of_mem mem) _ (.head _)

/-- The threads at the start stand for the rules of the mode, in order. -/
theorem starts_denotes (plain : n.IsPlain) (here : n.states[start]? = some s)
    (h : starts n fuel start = some ts) : Denotes n s.transitions [] ts := by
  rw [starts, here, Option.bind_eq_bind, Option.bind_some] at h
  simp only [Denotes, Network.run_nil]
  refine Option.foldlM_some (P := fun edges ts => Arranged edges (fun e => e.2 + 1)
    (fun e => n.settled (e.1.target, [])) ts) _ arranged_nil ?_ h
  rintro before ⟨e, i⟩ behind ts ts' all arranged step
  obtain ⟨⟨_, new⟩, settled, step⟩ := Option.bind_eq_some_iff.1 step
  obtain rfl := Option.some.inj step
  refine arranged.append (fun e' mem => (Nat.succ_lt_succ (lt_of_zipIdx all mem)).le) ?_
  exact settle_standAt plain ⟨rfl, rfl⟩ settled

/-- Threads that have read a symbol stay in order of their rules. -/
theorem reach_arranged {offset : Nat} (plain : n.IsPlain) (wf : n.WellFormed)
    (sorted : ts.Pairwise fun t t' => t.alt ≤ t'.alt)
    (kept : ∀ t ∈ ts, t.passedNonGreedy = false ∧ n.Keeps t.place)
    (h : reach n fuel offset ts x = some ts') :
    Arranged ts Thread.alt (fun t => n.advanced x t.place) ts' := by
  rw [reach] at h
  obtain ⟨⟨_, reached⟩, folded, h⟩ := Option.bind_eq_some_iff.1 h
  obtain rfl := Option.some.inj h
  refine Option.foldlM_some (P := fun before b => Arranged before Thread.alt
    (fun t => n.advanced x t.place) b.2) ts arranged_nil ?_ folded
  rintro before t behind ⟨finishedAlt, found⟩ ⟨_, found'⟩ all arranged step
  obtain ⟨passed, keeps⟩ := kept t (by simp [all])
  simp only [passed, Bool.and_false, Bool.false_eq_true, if_false] at step
  obtain ⟨s, here, step⟩ := Option.bind_eq_some_iff.1 step
  obtain ⟨⟨_, new⟩, advanced, step⟩ := Option.bind_eq_some_iff.1 step
  obtain ⟨-, rfl⟩ := Prod.mk.inj (Option.some.inj step)
  refine arranged.append (fun t' mem => ?_) (advance_standAt plain wf ⟨rfl, passed⟩ keeps here advanced)
  rw [all] at sorted
  exact (List.pairwise_append.1 sorted).2.2 t' mem t (.head _)

/-- Reading a character takes threads for some characters to threads for one more. -/
theorem reach_denotes {offset : Nat} (plain : n.IsPlain) (wf : n.WellFormed)
    (denotes : Denotes n s.transitions w ts) (h : reach n fuel offset ts x = some ts') :
    Denotes n s.transitions (w ++ [x]) ts' := by
  have arranged := reach_arranged plain wf denotes.sorted (fun t mem => by
    obtain ⟨e, -, isOf, keeps, -⟩ := denotes.sound t mem
    exact ⟨isOf.2, keeps⟩) h
  refine ⟨arranged.sorted, fun t' mem => ?_, fun e memE p => ?_⟩
  · obtain ⟨t, memT, isOf, p', read, keeps, path⟩ := arranged.sound t' mem
    obtain ⟨e, memE, isOfE, -, run⟩ := denotes.sound t memT
    refine ⟨e, memE, isOfE.1 ▸ isOf, keeps, Network.run_append.2 ⟨_, run, ?_⟩⟩
    exact .read read (Network.run_nil.2 path)
  · rintro ⟨keeps, run⟩
    obtain ⟨p₀, run₀, last⟩ := Network.run_append.1 run
    obtain ⟨p₁, p₂, path₁, read, path₂⟩ := Network.run_singleton.1 last
    have run₁ : n.Run 0 Symbol.lastChar (e.1.target, []) w p₁ := by
      simpa using Network.run_append.2 ⟨p₀, run₀, Network.run_nil.2 path₁⟩
    obtain ⟨t, memT, alt, rfl⟩ := denotes.complete e memE p₁ ⟨read.keeps, run₁⟩
    obtain ⟨t', mem', alt', eq⟩ := arranged.complete t memT p ⟨p₂, read, keeps, path₂⟩
    exact ⟨t', mem', alt'.trans alt, eq⟩

/-- Reading comes to its end if closures may be deeper than the silent moves go. -/
theorem reach_isSome {depth : Nat} (plain : n.IsPlain) (wf : n.WellFormed)
    (kept : ∀ t ∈ ts, t.passedNonGreedy = false ∧ n.Keeps t.place)
    (settles : ∀ t ∈ ts, ∀ p, n.Reads 0 Symbol.lastChar x t.place p →
      n.InRange p ∧ n.SettlesWithin depth p)
    (enough : depth < fuel) (offset : Nat) : (reach n fuel offset ts x).isSome := by
  rw [reach]
  refine Option.bind_isSome (Option.foldlM_isSome (fun t mem b => ?_) _) fun _ _ => rfl
  obtain ⟨passed, s, here, keeps⟩ := kept t mem
  have advances (accepted : Bool) :
      (t.advance n fuel offset x accepted s.transitions).isSome := by
    by_cases reads : ∃ e ∈ s.transitions, e.reads x 0 Symbol.lastChar = true
    · obtain ⟨e, memE, reads⟩ := reads
      rw [single_of_reads wf here memE reads, advance_single reads]
      have bottom : s.isRuleStop = true → t.frames = [] := by
        intro stop
        change t.place.2 = []
        simpa [stop] using keeps
      obtain ⟨inRange, depth_ok⟩ := settles t mem _ (.edge here bottom memE reads)
      exact settle_isSome (t := t.read n offset e) plain wf inRange depth_ok enough _ accepted
    · rw [advance_unread (by simpa using reads)]
      rfl
  simp only [passed, Bool.and_false, Bool.false_eq_true, if_false]
  refine Option.bind_isSome (Option.isSome_iff_exists.2 ⟨s, here⟩) fun s' here' => ?_
  obtain rfl := Option.some.inj (here'.symm.trans here)
  exact Option.bind_isSome (advances _) fun _ _ => rfl

/-- There is enough fuel for the start if there is enough for each rule. -/
theorem starts_isSome {depth : Nat} (plain : n.IsPlain) (wf : n.WellFormed)
    (here : n.states[start]? = some s)
    (settles : ∀ e ∈ s.transitions, n.SettlesWithin depth (e.target, [])) (enough : depth < fuel) :
    (starts n fuel start).isSome := by
  rw [starts, here, Option.bind_eq_bind, Option.bind_some]
  refine Option.foldlM_isSome ?_ _
  rintro ⟨e, i⟩ mem ts
  have mem : e ∈ s.transitions := List.mem_of_getElem? (List.mem_zipIdx_iff_getElem?.1 mem)
  have inRange : n.InRange (e.target, []) := ⟨wf.target_lt here mem, by simp⟩
  exact Option.bind_isSome (settle_isSome (t := { state := e.target, alt := i + 1 }) plain wf inRange
    (settles e mem) enough false false) fun _ _ => rfl

/-- No thread reads the end of the input. -/
theorem reach_eof {offset : Nat} (plain : n.IsPlain) (wf : n.WellFormed)
    (denotes : Denotes n s.transitions w ts) (h : reach n fuel offset ts Symbol.eof = some ts') :
    ts' = [] := by
  have arranged := reach_arranged plain wf denotes.sorted (fun t mem => by
    obtain ⟨e, -, isOf, keeps, -⟩ := denotes.sound t mem
    exact ⟨isOf.2, keeps⟩) h
  refine List.eq_nil_iff_forall_not_mem.2 fun t mem => ?_
  obtain ⟨_, _, _, _, read, -⟩ := arranged.sound t mem
  cases read with
  | edge here _ mem reads => cases (plain.noEofLabel _ (Array.mem_of_getElem? here) _ mem).symm.trans reads

/-- The first finished thread, if the threads are ordered by their alternatives. -/
theorem verdict_of_sorted {rule : Nat} (sorted : ts.Pairwise fun t t' => t.alt ≤ t'.alt)
    (h : verdict n ts = some (t, rule)) :
    t ∈ ts ∧ (∃ s, n.states[t.state]? = some s ∧ s.isRuleStop = true ∧ s.rule = rule) ∧
      ∀ t' ∈ ts, ∀ s', n.states[t'.state]? = some s' → s'.isRuleStop = true → t.alt ≤ t'.alt := by
  obtain ⟨before, first, behind, rfl, found, none⟩ := List.findSome?_eq_some_iff.1 h
  obtain ⟨s, hs, eq⟩ := Option.map_eq_some_iff.1 found
  obtain ⟨rfl, rfl⟩ := Prod.mk.inj eq
  obtain ⟨here, stop⟩ := Option.filter_eq_some_iff.1 hs
  refine ⟨by simp, ⟨s, here, stop, rfl⟩, fun t' mem s' here' stop' => ?_⟩
  rcases List.mem_append.1 mem with old | rest
  · have unfinished := none t' old
    simp [here', stop'] at unfinished
  · rcases List.mem_cons.1 rest with rfl | behind
    · exact Nat.le_refl _
    · exact (List.pairwise_cons.1 (List.pairwise_append.1 sorted).2.1).1 t' behind

theorem not_stop_of_verdict (h : verdict n ts = none) (mem : t ∈ ts)
    (here : n.states[t.state]? = some s) : s.isRuleStop = false := by
  have none := List.findSome?_eq_none_iff.1 h t mem
  rw [here] at none
  cases stop : s.isRuleStop with
  | false => rfl
  | true => simp [stop] at none

end Thread

end AdaptiveLL
