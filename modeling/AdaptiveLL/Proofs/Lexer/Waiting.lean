import AdaptiveLL.Proofs.Lexer.Denotation
import AdaptiveLL.Proofs.Network.Delimited
/-!
Threads in the loop of a delimited text. Each end of what was read that begins the closing text has
a thread that waits for what is missing of it, and one more thread reads on. Here is what a
character makes of each of them, as long as it does not complete the closing text.
-/
namespace AdaptiveLL

section Missing

variable {closing ys : List Symbol} {x : Symbol}

/-- What is missing of the closing text, for each end of what was read that begins it. The longest
end comes first. -/
def missing (closing ys : List Symbol) : List (List Symbol) :=
  ys.tails.filterMap (closing.dropPrefix? ·)

theorem mem_missing {rest : List Symbol} :
    rest ∈ missing closing ys ↔ ∃ begun, begun <:+ ys ∧ closing = begun ++ rest := by
  simp [missing, List.dropPrefix?_eq_some_iff]

theorem missing_nil : missing closing [] = [closing] := by
  simp [missing]

theorem dropPrefix?_concat (closing begun : List Symbol) (x : Symbol) :
    closing.dropPrefix? (begun ++ [x]) = (closing.dropPrefix? begun).bind (·.dropPrefix? [x]) := by
  refine Option.ext fun rest => ?_
  simp only [Option.bind_eq_some_iff, List.dropPrefix?_eq_some_iff, beq_iff_eq]
  constructor
  · rintro ⟨_, whole, rfl⟩
    exact ⟨[x] ++ rest, ⟨begun, by simpa using whole, rfl⟩, [x], rfl, rfl⟩
  · rintro ⟨_, ⟨_, rfl, rfl⟩, _, rfl, rfl⟩
    exact ⟨_, (List.append_assoc ..).symm, rfl⟩

theorem missing_concat (closing ys : List Symbol) (x : Symbol) :
    missing closing (ys ++ [x]) =
      (missing closing ys).filterMap (·.dropPrefix? [x]) ++ [closing] := by
  simp [missing, List.tails_append, List.filterMap_map, dropPrefix?_concat,
    List.filterMap_filterMap]

/-- The more has been read of the closing text, the less is missing. -/
theorem missing_sorted (closing ys : List Symbol) :
    (missing closing ys).Pairwise fun r r' => r.length < r'.length := by
  have tails : ys.tails.Pairwise fun t t' => t'.length < t.length := by
    induction ys with
    | nil => simp
    | cons y ys ih =>
        rw [List.tails_cons, List.pairwise_cons]
        refine ⟨fun t mem => ?_, ih⟩
        exact Nat.lt_succ_of_le ((List.mem_tails _ _).1 mem).length_le
  refine List.Pairwise.filterMap _ (fun t t' longer r drop r' drop' => ?_) tails
  obtain ⟨p, whole, same⟩ := List.dropPrefix?_eq_some_iff.1 drop
  obtain ⟨p', whole', same'⟩ := List.dropPrefix?_eq_some_iff.1 drop'
  rw [beq_iff_eq] at same same'
  subst same same'
  have := congrArg List.length whole
  have := congrArg List.length whole'
  simp only [List.length_append] at *
  omega

/-- If a closing text has just been completed, the thread that waits for it is the first. -/
theorem missing_of_completed (unclosed : ¬ closing <:+: ys) (completed : closing <:+ ys ++ [x]) :
    ∃ others, missing closing ys = [x] :: others := by
  obtain ⟨t, rfl, begun⟩ : ∃ t, closing = t ++ [x] ∧ t <:+ ys := by
    refine (List.suffix_concat_iff.1 completed).resolve_left ?_
    rintro rfl
    exact unclosed List.nil_infix
  have mem : [x] ∈ missing (t ++ [x]) ys := mem_missing.2 ⟨t, begun, rfl⟩
  have sorted := missing_sorted (t ++ [x]) ys
  cases all : missing (t ++ [x]) ys with
  | nil => rw [all] at mem; cases mem
  | cons first others =>
      rw [all] at mem sorted
      rcases List.mem_cons.1 mem with rfl | mem
      · exact ⟨others, rfl⟩
      · have shorter := (List.pairwise_cons.1 sorted).1 _ mem
        obtain rfl : first = [] := List.length_eq_zero_iff.1 (by simpa using shorter)
        obtain ⟨p, isSuffix, whole⟩ := mem_missing.1 (all ▸ List.mem_cons_self : [] ∈ missing _ ys)
        rw [List.append_nil] at whole
        exact absurd (whole ▸ isSuffix.isInfix) unclosed

end Missing

theorem Symbol.ne_eof {x : Symbol} (char : 0 ≤ x) : x ≠ Symbol.eof := by
  rintro rfl
  exact absurd char (by decide)

namespace Network

/-- The state has one edge, which reads characters. -/
def IsReading (n : Network) (q : Nat) : Prop :=
  ∃ e, n.LeavesBy q [e] ∧ e.isEpsilon = false ∧ e.reads Symbol.eof 0 Symbol.lastChar = false

variable {n : Network} {stop q : Nat} {w : List Symbol} {rule : Nat} {opening closing : List Symbol}

/-- From each of the states, the text in its place is read. -/
abbrev Rows (n : Network) (stop : Nat) : List (List Symbol) → List Nat → Prop :=
  List.Forall₂ fun w q => n.Row stop q w

theorem Row.isReading (row : n.Row stop q w) (nonempty : w ≠ []) : n.IsReading q := by
  cases row with
  | nil => exact absurd rfl nonempty
  | cons reads char _ _ =>
      exact ⟨_, reads, rfl, beq_eq_false_iff_ne.2 (Symbol.ne_eof char)⟩

/-- From one state, one text leads to the end of a row. -/
theorem Row.unique {v : List Symbol} (ends : ∀ ts, ¬ n.LeavesBy stop ts) (row : n.Row stop q w)
    (row' : n.Row stop q v) : w = v := by
  induction row generalizing v with
  | nil =>
      cases row' with
      | nil => rfl
      | cons reads _ _ _ => exact absurd reads (ends _)
  | cons reads _ goes _ ih =>
      cases row' with
      | nil => exact absurd reads (ends _)
      | cons reads' _ goes' rest' =>
          cases reads.unique reads'
          cases goes.unique goes'
          rw [ih rest']

/-- Where different texts lead to the end of a row, the states are different. -/
theorem nodup_of_rows {texts : List (List Symbol)} {qs : List Nat}
    (ends : ∀ ts, ¬ n.LeavesBy stop ts) (rows : n.Rows stop texts qs)
    (apart : texts.Nodup) : qs.Nodup := by
  induction rows with
  | nil => exact List.nodup_nil
  | @cons w q texts qs row rows ih =>
      obtain ⟨new, apart⟩ := List.nodup_cons.1 apart
      refine List.nodup_cons.2 ⟨fun mem => ?_, ih apart⟩
      obtain ⟨v, mem', row'⟩ := Assembly.exists_of_forall₂_right rows mem
      exact new (row.unique ends row' ▸ mem')

theorem Delimited.not_leavesBy (d : n.Delimited rule opening closing) (ts : List Transition) :
    ¬ n.LeavesBy (2 * rule) ts := by
  rintro ⟨s, here, going, -⟩
  obtain ⟨s', here', stop, -⟩ := d.stops
  obtain rfl := Option.some.inj (here.symm.trans here')
  exact nomatch stop.symm.trans going

end Network

namespace Thread

variable {n : Network} {q q' fuel offset : Nat} {passed crossEof accepted b : Bool}
  {t : Thread} {ts new : List Thread} {x : Symbol}

/-- A thread of the first rule that has made no call and carries no command. -/
def bare (q : Nat) (passed : Bool) : Thread :=
  { state := q, alt := 1, passedNonGreedy := passed }

/-! ### Closures -/

/-- Plain edges are crossed one after the other. -/
theorem settle_plains {targets : List Nat} (nonempty : targets ≠ [])
    (leaves : n.LeavesBy q (targets.map .plain)) :
    (bare q passed).settle n crossEof (fuel + 1) accepted =
      targets.foldlM (fun (found : Bool × List Thread) q' =>
        ((bare q' (passed || n.isNonGreedy q')).settle n crossEof fuel found.1).map fun r =>
          (r.1, found.2 ++ r.2)) (accepted, []) := by
  obtain ⟨s, here, inside, edges⟩ := leaves
  have silent : s.isEpsilonOnly = true := by
    simp [State.isEpsilonOnly, edges, nonempty, Transition.plain, Transition.isEpsilon]
  rw [settle, show n.states[(bare q passed).state]? = some s from here]
  simp only [Option.bind_eq_bind, Option.bind_some, inside, Bool.false_eq_true, if_false, edges,
    silent, Bool.not_true, Bool.false_and, List.foldlM_map]
  refine congrArg (targets.foldlM · (accepted, [])) (funext₂ fun found q' => ?_)
  exact (Option.map_eq_bind ..).symm

theorem settle_plain (leaves : n.LeavesBy q [.plain q']) :
    (bare q passed).settle n crossEof (fuel + 1) accepted =
      (bare q' (passed || n.isNonGreedy q')).settle n crossEof fuel accepted := by
  rw [settle_plains (List.cons_ne_nil q' []) leaves]
  simp

/-- At a loop the threads that leave it come before those that go through it once more. -/
theorem settle_branch {q'' : Nat} {new' : List Thread}
    (leaves : n.LeavesBy q [.plain q', .plain q''])
    (first : (bare q' (passed || n.isNonGreedy q')).settle n crossEof fuel false =
      some (false, new))
    (second : (bare q'' (passed || n.isNonGreedy q'')).settle n crossEof fuel false =
      some (false, new')) :
    (bare q passed).settle n crossEof (fuel + 1) false = some (false, new ++ new') := by
  rw [settle_plains (List.cons_ne_nil q' [q'']) leaves]
  simp [first, second]

theorem settle_reading (reading : n.IsReading q) :
    (bare q passed).settle n false (fuel + 1) false = some (false, [bare q passed]) := by
  obtain ⟨e, ⟨s, here, inside, edges⟩, reads, -⟩ := reading
  have kept : s.isEpsilonOnly = false := by simp [State.isEpsilonOnly, edges, reads]
  rw [settle, show n.states[(bare q passed).state]? = some s from here]
  have uncrossed : (bare q passed).cross n false e = none := by
    cases e with
    | atom | range | set | notSet | wildcard => rfl
    | epsilon | call | predicate | precedence | action => cases reads
  simp [inside, edges, kept, uncrossed]

theorem settle_stop {s : State} (here : n.states[q]? = some s) (stop : s.isRuleStop = true) :
    (bare q passed).settle n crossEof (fuel + 1) accepted = some (true, [bare q passed]) := by
  rw [settle, show n.states[(bare q passed).state]? = some s from here]
  simp [stop, bare]

/-! ### Reading -/

theorem foldl_enlist (apart : (ts ++ new).Nodup) : new.foldl enlist ts = ts ++ new := by
  induction new generalizing ts with
  | nil => simp
  | cons t new ih =>
      have fresh : t ∉ ts := fun mem => (List.nodup_append.1 apart).2.2 t mem t (.head _) rfl
      rw [List.foldl_cons, enlist, if_neg fresh, ih (by simpa using apart), List.append_assoc]
      rfl

/-- The thread becomes others by reading, and does not finish. -/
def Becomes (n : Network) (fuel offset : Nat) (x : Symbol) (t : Thread) (new : List Thread) :
    Prop :=
  ∃ s, n.states[t.state]? = some s ∧
    t.advance n fuel offset x false s.transitions = some (false, new)

/-- Where no thread finishes, each of them reads. -/
theorem reach_going {news : List (List Thread)}
    (each : List.Forall₂ (Becomes n fuel offset x) ts news)
    (apart : news.flatten.Nodup) : reach n fuel offset ts x = some news.flatten := by
  rw [reach, Option.foldlM_append ?_ each (by simpa using apart)]
  · rfl
  rintro reached t new ⟨s, here, reads⟩ apart
  simp [here, reads, foldl_enlist apart]

/-- Threads that cannot read a symbol end there. -/
theorem reach_unread (unread : ∀ t ∈ ts, ∃ s, n.states[t.state]? = some s ∧
    ∀ e ∈ s.transitions, e.reads x 0 Symbol.lastChar = false) :
    reach n fuel offset ts x = some [] := by
  have none : (ts.map fun _ => ([] : List Thread)).flatten = [] := by simp
  rw [← none]
  refine reach_going (List.forall₂_map_right_iff.2 (List.forall₂_same.2 fun t mem => ?_)) (by simp)
  obtain ⟨s, here, unread⟩ := unread t mem
  exact ⟨s, here, advance_unread unread⟩

/-- Behind a thread that finishes, threads of its rule that went through a loop are passed over. -/
theorem reach_finished {s : State} (here : n.states[t.state]? = some s)
    (finishes : t.advance n fuel offset x false s.transitions = some (true, new))
    (apart : new.Nodup) (behind : ∀ t' ∈ ts, t'.alt = t.alt ∧ t'.passedNonGreedy = true) :
    reach n fuel offset (t :: ts) x = some new := by
  have listed : new.foldl enlist [] = new := foldl_enlist (by simpa using apart)
  have passed : List.Forall₂ (fun t' new' => t'.alt = t.alt ∧ t'.passedNonGreedy = true ∧ new' = [])
      ts (ts.map fun _ => ([] : List Thread)) :=
    List.forall₂_map_right_iff.2 (List.forall₂_same.2 fun t' mem =>
      ⟨(behind t' mem).1, (behind t' mem).2, rfl⟩)
  rw [reach, List.foldlM_cons]
  simp only [Option.none_beq_some, Bool.false_and, Bool.false_eq_true, if_false, here,
    Option.bind_eq_bind, Option.bind_some, finishes, if_true, listed]
  rw [Option.foldlM_append ?_ passed (by simpa using apart)]
  · simp
  · rintro reached t' _ ⟨alt, passed, rfl⟩ -
    simp [alt, passed]

/-- What a thread of a row becomes by reading: it goes on, or it ends. -/
theorem advance_row (fuel offset : Nat) (passed : Bool) (x : Symbol) {stop : Nat} {y : Symbol}
    {w : List Symbol} (row : n.Row stop q (y :: w)) :
    ∃ s q' passed', n.states[q]? = some s ∧ n.Row stop q' w ∧
      (passed = true ∨ n.isNonGreedy q' = true → passed' = true) ∧
      (bare q passed).advance n (fuel + 1) offset x false s.transitions =
        if x = y then (bare q' passed').settle n false fuel false else some (false, []) := by
  cases row with
  | @cons _ p q' _ _ reads char goes rest =>
      obtain ⟨s, here, -, edges⟩ := reads
      refine ⟨s, q', passed || n.isNonGreedy p || n.isNonGreedy q', here, rest, ?_, ?_⟩
      · rintro (rfl | nonGreedy)
        · simp
        · simp [nonGreedy]
      · rw [edges]
        split
        case isTrue same =>
            subst same
            have inner : (x == Symbol.eof) = false := beq_eq_false_iff_ne.2 (Symbol.ne_eof char)
            rw [advance_single (by simp [Transition.reads]), inner]
            exact settle_plain goes
        case isFalse other =>
            refine advance_unread (List.forall_mem_singleton.2 ?_)
            simpa [Transition.reads] using Ne.symm other

end Thread

namespace Network.Delimited

open Thread (Becomes bare settle reach)

variable {n : Network} {rule fuel offset : Nat} {opening closing : List Symbol} {passed : Bool}
  {x : Symbol} (d : n.Delimited rule opening closing)

theorem isReading_last : n.IsReading d.last :=
  d.closes.isReading d.nonempty.2

theorem isReading_any : n.IsReading d.any :=
  ⟨_, d.reads, rfl, rfl⟩

/-- Behind each character between the texts, one thread waits for the closing text and one goes on
reading. Both know that they went through the loop. -/
theorem settle_loop (fuel : Nat) : (bare d.loop true).settle n false (fuel + 3) false =
    some (false, [bare d.last true, bare d.any true]) := by
  have leaving : (bare d.leave (true || n.isNonGreedy d.leave)).settle n false (fuel + 2) false =
      some (false, [bare d.last true]) :=
    (Thread.settle_plain d.leaves).trans (Thread.settle_reading d.isReading_last)
  have repeating : (bare d.again (true || n.isNonGreedy d.again)).settle n false (fuel + 2) false =
      some (false, [bare d.any true]) :=
    (Thread.settle_plain d.repeats).trans (Thread.settle_reading d.isReading_any)
  exact Thread.settle_branch d.decides leaving repeating

theorem isNonGreedy_loop : n.isNonGreedy d.loop = true := by
  obtain ⟨s, here, decides, nonGreedy⟩ := d.nonGreedy
  simp [Network.isNonGreedy, here, decides, nonGreedy]

/-- The thread that goes on reads any character. -/
theorem becomes_any (fuel offset : Nat) (char : 0 ≤ x ∧ x ≤ Symbol.lastChar) :
    Becomes n (fuel + 6) offset x (bare d.any true) [bare d.last true, bare d.any true] := by
  obtain ⟨s, here, -, edges⟩ := d.reads
  have inner : (x == Symbol.eof) = false := beq_eq_false_iff_ne.2 (Symbol.ne_eof char.1)
  refine ⟨s, here, ?_⟩
  rw [edges, Thread.advance_single (by simpa [Transition.reads] using char), inner]
  change (bare d.behind (true || n.isNonGreedy d.behind)).settle n false (fuel + 6) false = _
  rw [Thread.settle_plain d.ends, Thread.settle_plain d.returns, Thread.settle_plain d.loops]
  exact d.settle_loop fuel

/-- As long as no closing text is completed, each thread that waits for one goes on or ends. -/
theorem becomes_waiting (fuel offset : Nat) {rests : List (List Symbol)} {qs : List Nat}
    (rows : n.Rows (2 * rule) rests qs)
    (unfinished : ∀ rest ∈ rests, rest ≠ [] ∧ rest ≠ [x]) : ∃ qs' news,
      n.Rows (2 * rule) (rests.filterMap (·.dropPrefix? [x])) qs' ∧
      news.flatten = qs'.map (bare · true) ∧
      List.Forall₂ (Becomes n (fuel + 6) offset x) (qs.map (bare · true)) news := by
  induction rows with
  | nil => exact ⟨[], [], .nil, rfl, .nil⟩
  | @cons rest q rests qs row rows ih =>
      obtain ⟨⟨some, unfinished⟩, others⟩ := List.forall_mem_cons.1 unfinished
      obtain ⟨qs', news, rows', all, each⟩ := ih others
      cases rest with
      | nil => exact absurd rfl some
      | cons y rest =>
          obtain ⟨s, q', passed', here, row', passes, reads⟩ :=
            Thread.advance_row (fuel + 5) offset true x row
          obtain rfl := passes (.inl rfl)
          by_cases same : x = y
          · subst same
            have reading : n.IsReading q' := row'.isReading fun none => unfinished (by rw [none])
            refine ⟨q' :: qs', [bare q' true] :: news, ?_, by simp [all], .cons ⟨s, here, ?_⟩ each⟩
            · rw [List.filterMap_cons_some (b := rest) (by simp [List.dropPrefix?])]
              exact .cons row' rows'
            · rw [reads, if_pos rfl]
              exact Thread.settle_reading reading
          · refine ⟨qs', [] :: news, ?_, by simpa using all, .cons ⟨s, here, ?_⟩ each⟩
            · rwa [List.filterMap_cons_none (by simp [List.dropPrefix?, Ne.symm same])]
            · rw [reads, if_neg same]

end Network.Delimited

end AdaptiveLL
