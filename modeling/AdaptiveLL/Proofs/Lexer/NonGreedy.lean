import AdaptiveLL.Proofs.Lexer.LongestMatch
import AdaptiveLL.Proofs.Lexer.Transparency
import AdaptiveLL.Proofs.Lexer.Waiting
/-!
A non-greedy loop matches as little as it can. In a mode with one rule for delimited texts a match
ends at the first closing text behind the opening one: the threads in the loop know that they went
through it, the one that waits for the longest begun closing text comes first, and those behind it
are passed over when it has finished.
-/
namespace AdaptiveLL

/-- The characters ahead begin with the opening text and what is between it and the nearest closing
text. -/
structure IsNearest (opening closing ahead between : List Symbol) : Prop where
  isPrefix : opening ++ between ++ closing <+: ahead
  nearest : ∀ other, opening ++ other ++ closing <+: ahead → between.length ≤ other.length

theorem IsNearest.append {opening closing ahead between : List Symbol}
    (h : IsNearest opening closing ahead between) (more : List Symbol) :
    IsNearest opening closing (ahead ++ more) between where
  isPrefix := h.isPrefix.trans (List.prefix_append ..)
  nearest other isPrefix := by
    by_contra shorter
    have le : (opening ++ other ++ closing).length ≤ (opening ++ between ++ closing).length := by
      simp only [List.length_append]
      omega
    have within := List.prefix_of_prefix_length_le isPrefix (List.prefix_append ahead more)
      (le.trans h.isPrefix.length_le)
    exact shorter (h.nearest other within)

/-- A thread without commands has nothing to pin. -/
theorem Thread.IsQuiet.bare {n : Network} {q : Nat} {passed : Bool} :
    (Thread.bare q passed).IsQuiet n :=
  .inl fun _ carried => (Option.not_mem_none _ carried).elim

namespace Network.Delimited

open Thread (bare settle reach)

variable {n : Network} {rule fuel offset : Nat} {opening closing : List Symbol} {x : Symbol}
  {d : n.Delimited rule opening closing} {w ys : List Symbol} {qs : List Nat} {ts : List Thread}
  {last : Option Finish}

/-! ### The stages of a match -/

/-- The finish is at the end of the nearest closing text, if there is one. -/
def EndsNearest (rule : Nat) (opening closing ahead : List Symbol) : Option Finish → Prop
  | some f => ∃ between, IsNearest opening closing ahead between ∧
      f.length = (opening ++ between ++ closing).length ∧ f.rule = rule ∧ f.thread.actions = none
  | none => ∀ between, ¬ opening ++ between ++ closing <+: ahead

/-- The threads after a text was read, and the last finish. One thread reads the opening text.
Behind it, one thread waits for each begun closing text and one reads on. When a closing text is
completed, the thread that has read it is the only one. -/
inductive Stage (d : n.Delimited rule opening closing) :
    List Symbol → List Thread → Option Finish → Prop where
  | atOpening {w rest : List Symbol} {q : Nat} {passed : Bool} (split : w ++ rest = opening)
      (unread : rest ≠ []) (row : n.Row d.loop q rest) : Stage d w [bare q passed] none
  | inside {ys : List Symbol} {qs : List Nat} (unclosed : ¬ closing <:+: ys)
      (rows : n.Rows (2 * rule) (missing closing ys) qs) :
      Stage d (opening ++ ys) ((qs ++ [d.any]).map (bare · true)) none
  | closed {between : List Symbol}
      (nearest : IsNearest opening closing (opening ++ between ++ closing) between) :
      Stage d (opening ++ between ++ closing) [bare (2 * rule) true]
        (some ⟨(opening ++ between ++ closing).length, bare (2 * rule) true, rule⟩)

/-- Threads that have not finished can read. -/
theorem isReading_inside (unclosed : ¬ closing <:+: ys)
    (rows : n.Rows (2 * rule) (missing closing ys) qs) :
    ∀ q ∈ qs ++ [d.any], n.IsReading q := by
  intro q mem
  rcases List.mem_append.1 mem with mem | mem
  · obtain ⟨rest, mem', row⟩ := Assembly.exists_of_forall₂_right rows mem
    refine row.isReading ?_
    rintro rfl
    obtain ⟨begun, isSuffix, whole⟩ := mem_missing.1 mem'
    rw [List.append_nil] at whole
    exact unclosed (whole ▸ isSuffix.isInfix)
  · exact List.mem_singleton.1 mem ▸ d.isReading_any

theorem Stage.mem {t : Thread} (stage : d.Stage w ts last) (mem : t ∈ ts) :
    ∃ q passed, t = bare q passed ∧ (n.IsReading q ∨ q = 2 * rule) := by
  cases stage with
  | atOpening _ unread row =>
      exact ⟨_, _, List.mem_singleton.1 mem, .inl (row.isReading unread)⟩
  | inside unclosed rows =>
      obtain ⟨q, mem', rfl⟩ := List.mem_map.1 mem
      exact ⟨q, true, rfl, .inl (isReading_inside unclosed rows q mem')⟩
  | closed => exact ⟨_, _, List.mem_singleton.1 mem, .inr rfl⟩

/-- The threads carry no commands, and are at states where threads are kept. -/
theorem Stage.quiet (stage : d.Stage w ts last) : Thread.AllQuiet n ts := by
  intro t mem
  obtain ⟨q, passed, rfl, reading | rfl⟩ := stage.mem mem
  · obtain ⟨e, ⟨s, here, inside, edges⟩, reads, -⟩ := reading
    exact ⟨.bare, s, here, .inr ⟨inside, by simp [State.isEpsilonOnly, edges, reads]⟩⟩
  · obtain ⟨s, here, stop, -⟩ := d.stops
    exact ⟨.bare, s, here, .inl ⟨stop, rfl⟩⟩

theorem unread_stop (d : n.Delimited rule opening closing) (x : Symbol) :
    ∃ s, n.states[2 * rule]? = some s ∧
      ∀ e ∈ s.transitions, e.reads x 0 Symbol.lastChar = false := by
  obtain ⟨s, here, -, -, silent⟩ := d.stops
  refine ⟨s, here, fun e mem => ?_⟩
  by_contra reads
  exact nomatch (silent e mem).symm.trans (Transition.isEpsilon_of_reads (by simpa using reads))

/-- No thread reads the end of the input. -/
theorem Stage.reach_eof (stage : d.Stage w ts last) :
    reach n fuel offset ts Symbol.eof = some [] := by
  refine Thread.reach_unread fun t mem => ?_
  obtain ⟨q, passed, rfl, reading | rfl⟩ := stage.mem mem
  · obtain ⟨e, ⟨s, here, -, edges⟩, -, unread⟩ := reading
    exact ⟨s, here, by simpa [edges] using unread⟩
  · exact d.unread_stop Symbol.eof

/-- A closing text behind the opening one is a part of what comes behind. -/
theorem infix_of_closed {between : List Symbol}
    (closed : opening ++ between ++ closing <+: opening ++ ys) : closing <:+: ys := by
  rw [List.append_assoc, List.prefix_append_right_inj] at closed
  exact (List.suffix_append between closing).isInfix.trans closed.isInfix

/-- When nothing more is read, the last finish is the right one. -/
theorem Stage.endsNearest (stage : d.Stage w ts last) :
    EndsNearest rule opening closing w last := by
  cases stage with
  | atOpening split unread _ =>
      intro between closed
      have short := closed.length_le
      have some := List.length_pos_iff.2 unread
      simp only [← split, List.length_append] at short
      omega
  | inside unclosed _ => exact fun between closed => unclosed (infix_of_closed closed)
  | closed nearest => exact ⟨_, nearest, rfl, rfl, rfl⟩

/-- No thread is finished while all can read. -/
theorem finish?_reading {k : Nat} (reading : ∀ t ∈ ts, n.IsReading t.state) :
    Thread.finish? n k ts = none := by
  simp only [Thread.finish?, Thread.verdict, Option.map_eq_none_iff, List.findSome?_eq_none_iff]
  intro t mem
  obtain ⟨e, ⟨s, here, inside, -⟩, -⟩ := reading t mem
  simp [here, inside]

theorem finish?_stop (d : n.Delimited rule opening closing) (k : Nat) :
    Thread.finish? n k [bare (2 * rule) true] = some ⟨k, bare (2 * rule) true, rule⟩ := by
  obtain ⟨s, here, stop, same, -⟩ := d.stops
  simp [Thread.finish?, Thread.verdict, bare, here, stop, same]

theorem nodup_inside (rows : n.Rows (2 * rule) (missing closing ys) qs) :
    ((qs ++ [d.any]).map (bare · true)).Nodup := by
  have apart : (missing closing ys).Nodup :=
    (missing_sorted closing ys).imp fun shorter => by
      rintro rfl
      exact Nat.lt_irrefl _ shorter
  have nodup : (qs ++ [d.any]).Nodup := by
    refine (Network.nodup_of_rows d.not_leavesBy rows apart).append (List.nodup_singleton _) ?_
    refine List.disjoint_singleton.2 fun mem => ?_
    obtain ⟨rest, -, row⟩ := Assembly.exists_of_forall₂_right rows mem
    generalize same : d.any = q at row
    cases row with
    | nil => exact d.not_leavesBy _ (same ▸ d.reads)
    | cons reads => cases (same ▸ d.reads).unique reads
  refine nodup.map fun q q' same => ?_
  exact congrArg Thread.state same

/-- What reading a character leads to: all threads end, and the last finish is the right one
whatever comes behind; or the next stage. -/
def Leads (d : n.Delimited rule opening closing) (w : List Symbol) (x : Symbol) (ts' : List Thread)
    (last : Option Finish) : Prop :=
  (ts' = [] ∧ ∀ cs, EndsNearest rule opening closing (w ++ x :: cs) last) ∨
    (ts' ≠ [] ∧ d.Stage (w ++ [x]) ts' ((Thread.finish? n (w.length + 1) ts').or last))

theorem leads_of_inside (whole : w ++ [x] = opening ++ ys) (unclosed : ¬ closing <:+: ys)
    (rows : n.Rows (2 * rule) (missing closing ys) qs) :
    d.Leads w x ((qs ++ [d.any]).map (bare · true)) none := by
  refine .inr ⟨by simp, ?_⟩
  rw [finish?_reading (List.forall_mem_map.2 (isReading_inside unclosed rows)), whole]
  exact .inside unclosed rows

/-- The one thread goes on in the opening text, goes into the loop behind it, or ends. -/
theorem leads_atOpening {rest : List Symbol} {q : Nat} {passed : Bool} (split : w ++ rest = opening)
    (unread : rest ≠ []) (row : n.Row d.loop q rest) : ∃ ts',
      reach n (fuel + 6) offset [bare q passed] x = some ts' ∧ d.Leads w x ts' none := by
  cases rest with
  | nil => exact absurd rfl unread
  | cons y rest =>
      obtain ⟨s, q', passed', here, row', passes, reads⟩ :=
        Thread.advance_row (fuel + 5) offset passed x row
      have going (new : List Thread) (apart : new.Nodup)
          (reads : (bare q passed).advance n (fuel + 6) offset x false s.transitions =
            some (false, new)) : reach n (fuel + 6) offset [bare q passed] x = some new := by
        simpa using Thread.reach_going (.cons ⟨s, here, reads⟩ .nil) (by simpa using apart)
      by_cases same : x = y
      · subst same
        rw [if_pos rfl] at reads
        by_cases whole : rest = []
        · subst whole split
          cases row'
          obtain rfl := passes (.inr d.isNonGreedy_loop)
          have unclosed : ¬ closing <:+: [] := fun isInfix =>
            d.nonempty.2 (List.infix_nil.1 isInfix)
          have rows : n.Rows (2 * rule) (missing closing []) [d.last] :=
            missing_nil ▸ .cons d.closes .nil
          have settled := reads.trans (d.settle_loop (fuel + 2))
          have leads := leads_of_inside (d := d) (List.append_nil (w ++ [x])).symm unclosed rows
          exact ⟨_, going _ (nodup_inside rows) settled, leads⟩
        · have reading := row'.isReading whole
          have settled := reads.trans (Thread.settle_reading reading)
          refine ⟨_, going _ (List.nodup_singleton _) settled, .inr ⟨by simp, ?_⟩⟩
          rw [finish?_reading (List.forall_mem_singleton.2 reading)]
          exact .atOpening (by simpa using split) whole row'
      · rw [if_neg same] at reads
        refine ⟨[], going [] List.nodup_nil reads, .inl ⟨rfl, fun cs between closed => same ?_⟩⟩
        have begins : opening <+: w ++ x :: cs :=
          ((List.prefix_append _ _).trans (List.prefix_append _ _)).trans closed
        rw [← split, List.prefix_append_right_inj, List.cons_prefix_cons] at begins
        exact begins.1.symm

/-- A closing text that is completed for the first time is the nearest one. -/
theorem isNearest_completed {between : List Symbol} (unclosed : ¬ closing <:+: ys)
    (completed : between ++ closing = ys ++ [x]) :
    IsNearest opening closing (opening ++ between ++ closing) between where
  isPrefix := List.prefix_rfl
  nearest other isPrefix := by
    by_contra shorter
    rw [List.append_assoc, List.append_assoc, List.prefix_append_right_inj, completed] at isPrefix
    have length := congrArg List.length completed
    simp only [List.length_append, List.length_singleton] at length
    have within : other ++ closing <+: ys := by
      refine List.prefix_of_prefix_length_le isPrefix (List.prefix_append _ _) ?_
      simp only [List.length_append]
      omega
    exact unclosed ((List.suffix_append _ _).isInfix.trans within.isInfix)

/-- The thread that completes a closing text is the first, and those behind it are passed over. -/
theorem leads_completed (unclosed : ¬ closing <:+: ys) (completed : closing <:+ ys ++ [x])
    (rows : n.Rows (2 * rule) (missing closing ys) qs) :
    reach n (fuel + 6) offset ((qs ++ [d.any]).map (bare · true)) x = some [bare (2 * rule) true] ∧
      d.Leads (opening ++ ys) x [bare (2 * rule) true] none := by
  obtain ⟨others, first⟩ := missing_of_completed unclosed completed
  rw [first] at rows
  obtain ⟨q, qs, row, -, rfl⟩ := List.forall₂_cons_left_iff.1 rows
  obtain ⟨s, q', passed', here, row', passes, reads⟩ :=
    Thread.advance_row (fuel + 5) offset true x row
  cases row'
  obtain rfl := passes (.inl rfl)
  obtain ⟨stop, there, isStop, -⟩ := d.stops
  have finishes := reads.trans ((if_pos rfl).trans (Thread.settle_stop there isStop))
  refine ⟨?_, .inr ⟨by simp, ?_⟩⟩
  · refine Thread.reach_finished here finishes (List.nodup_singleton _) ?_
    exact List.forall_mem_map.2 fun _ _ => ⟨rfl, rfl⟩
  · obtain ⟨between, completed⟩ := completed
    have nearest : IsNearest opening closing _ between := isNearest_completed unclosed completed
    have whole : opening ++ ys ++ [x] = opening ++ between ++ closing := by
      simp only [List.append_assoc, completed]
    have length : (opening ++ ys).length + 1 = (opening ++ between ++ closing).length := by
      simp only [← whole, List.length_append, List.length_singleton]
    rw [d.finish?_stop, whole, length]
    exact .closed nearest

/-- As long as no closing text is completed, there is one more that may begin here. -/
theorem leads_uncompleted (char : 0 ≤ x ∧ x ≤ Symbol.lastChar) (unclosed : ¬ closing <:+: ys)
    (uncompleted : ¬ closing <:+ ys ++ [x])
    (rows : n.Rows (2 * rule) (missing closing ys) qs) : ∃ ts',
      reach n (fuel + 6) offset ((qs ++ [d.any]).map (bare · true)) x = some ts' ∧
        d.Leads (opening ++ ys) x ts' none := by
  have unfinished : ∀ rest ∈ missing closing ys, rest ≠ [] ∧ rest ≠ [x] := by
    intro rest mem
    obtain ⟨begun, isSuffix, whole⟩ := mem_missing.1 mem
    constructor
    · rintro rfl
      rw [List.append_nil] at whole
      exact unclosed (whole ▸ isSuffix.isInfix)
    · rintro rfl
      exact uncompleted (List.suffix_concat_iff.2 (.inr ⟨begun, whole, isSuffix⟩))
  obtain ⟨qs', news, rows', all, each⟩ := becomes_waiting fuel offset rows unfinished
  have one_more := d.becomes_any fuel offset char
  have rows₁ : n.Rows (2 * rule) (missing closing (ys ++ [x])) (qs' ++ [d.last]) :=
    missing_concat closing ys x ▸ List.rel_append rows' (.cons d.closes .nil)
  have unclosed₁ : ¬ closing <:+: ys ++ [x] := fun isInfix =>
    (List.infix_concat_iff.1 isInfix).elim uncompleted unclosed
  have whole : (news ++ [[bare d.last true, bare d.any true]]).flatten =
      (qs' ++ [d.last] ++ [d.any]).map (bare · true) := by simp [all]
  have reached := Thread.reach_going (List.rel_append each (.cons one_more .nil))
    (whole ▸ nodup_inside rows₁)
  rw [whole] at reached
  exact ⟨_, by simpa using reached, leads_of_inside (List.append_assoc ..) unclosed₁ rows₁⟩

/-- Reading a character leads from each stage to the next one. -/
theorem Stage.exists_reach (fuel offset : Nat) (char : 0 ≤ x ∧ x ≤ Symbol.lastChar)
    (stage : d.Stage w ts last) : ∃ ts',
      reach n (fuel + 6) offset ts x = some ts' ∧ d.Leads w x ts' last := by
  cases stage with
  | atOpening split unread row => exact leads_atOpening split unread row
  | @inside ys qs unclosed rows =>
      by_cases completed : closing <:+ ys ++ [x]
      · exact ⟨_, leads_completed unclosed completed rows⟩
      · exact leads_uncompleted char unclosed completed rows
  | @closed between nearest =>
      refine ⟨[], Thread.reach_unread ?_, .inl ⟨rfl, fun cs => ?_⟩⟩
      · exact List.forall_mem_singleton.2 (d.unread_stop x)
      · exact ⟨between, nearest.append _, rfl, rfl, rfl⟩

/-! ### Whole matches -/

/-- The threads of a match end with the right finish. -/
theorem Stage.scans {cs : List Symbol} {stop : Nat} {win : Option Finish}
    (stage : d.Stage w ts last) (chars : ∀ c ∈ cs, 0 ≤ c ∧ c ≤ Symbol.lastChar)
    (scans : Thread.Scans n cs w.length ts last stop win) :
    EndsNearest rule opening closing (w ++ cs) win := by
  generalize length : w.length = k at scans
  induction scans generalizing w with
  | @ended cs k ts last dead =>
      cases cs with
      | nil => simpa using stage.endsNearest
      | cons c cs =>
          obtain ⟨ts', reached, leads⟩ := stage.exists_reach 0 0 (chars c (.head _))
          obtain rfl := dead.unique stage.quiet ⟨_, _, reached⟩
          exact leads.elim (·.2 cs) fun alive => absurd rfl alive.1
  | @read c cs k stop ts ts' last win next alive _ ih =>
      obtain ⟨ts'', reached, leads⟩ := stage.exists_reach 0 0 (chars c (.head _))
      obtain rfl := next.unique stage.quiet ⟨_, _, reached⟩
      obtain ⟨-, stage'⟩ := leads.resolve_left fun dead => alive dead.1
      subst length
      simpa using ih stage' (fun c' mem => chars c' (.tail _ mem)) (by simp)
  | finishAtEnd next alive =>
      exact absurd (next.unique stage.quiet ⟨0, 0, stage.reach_eof⟩) alive
  | goOnAtEnd next alive =>
      exact absurd (next.unique stage.quiet ⟨0, 0, stage.reach_eof⟩) alive

/-- The threads are those of a stage, or all have ended. -/
def InStage (d : n.Delimited rule opening closing) (ts : List Thread) : Prop :=
  ts = [] ∨ ∃ w last, d.Stage w ts last

theorem InStage.quiet (stage : d.InStage ts) : Thread.AllQuiet n ts := by
  rcases stage with rfl | ⟨w, last, stage⟩
  · exact Thread.allQuiet_nil
  · exact stage.quiet

theorem InStage.reach_eof (stage : d.InStage ts) :
    reach n fuel offset ts Symbol.eof = some [] := by
  rcases stage with rfl | ⟨w, last, stage⟩
  · rfl
  · exact stage.reach_eof

theorem InStage.exists_reach (fuel offset : Nat) (char : 0 ≤ x ∧ x ≤ Symbol.lastChar)
    (stage : d.InStage ts) : ∃ ts',
      reach n (fuel + 6) offset ts x = some ts' ∧ d.InStage ts' := by
  rcases stage with rfl | ⟨w, last, stage⟩
  · exact ⟨[], rfl, .inl rfl⟩
  · obtain ⟨ts', reached, leads⟩ := stage.exists_reach fuel offset char
    exact ⟨ts', reached, leads.imp (·.1) fun next => ⟨_, _, next.2⟩⟩

/-- No match gets stuck, if more symbols may be read than there are characters. -/
theorem InStage.not_stuck {cs : List Symbol} {symbols k : Nat}
    (stuck : Thread.Stuck n (fuel + 6) symbols cs k ts) (stage : d.InStage ts)
    (chars : ∀ c ∈ cs, 0 ≤ c ∧ c ≤ Symbol.lastChar) (more : cs.length < symbols) : False := by
  induction stuck with
  | tooLong => exact absurd more (Nat.not_lt_zero _)
  | @tooDeep symbols k cs ts lacking =>
      cases cs with
      | nil => cases stage.reach_eof.symm.trans lacking
      | cons c cs =>
          obtain ⟨ts', reached, -⟩ := stage.exists_reach fuel k (chars c (.head _))
          cases reached.symm.trans lacking
  | @read symbols k c cs ts ts' next _ ih =>
      obtain ⟨ts'', reached, stage'⟩ := stage.exists_reach 0 0 (chars c (.head _))
      obtain rfl := next.unique stage.quiet ⟨_, _, reached⟩
      exact ih stage' (fun c' mem => chars c' (.tail _ mem)) (Nat.lt_of_succ_lt_succ more)
  | goOnAtEnd next alive =>
      exact alive (next.unique stage.quiet ⟨0, 0, stage.reach_eof⟩)

/-- A match begins in front of the opening text. -/
theorem exists_starts (d : n.Delimited rule opening closing) (fuel : Nat) {start : Nat}
    (leaves : n.LeavesBy start [.plain (2 * rule + 1)]) : ∃ ts,
      Thread.starts n (fuel + 6) start = some ts ∧ d.Stage [] ts (Thread.finish? n 0 ts) := by
  obtain ⟨s, here, -, edges⟩ := leaves
  have reading := d.opens.isReading d.nonempty.1
  have settled : settle n false (fuel + 6) false (bare (2 * rule + 1) false) =
      some (false, [bare d.first (false || n.isNonGreedy d.first)]) :=
    (Thread.settle_plain d.begins).trans (Thread.settle_reading reading)
  refine ⟨[bare d.first (false || n.isNonGreedy d.first)], ?_, ?_⟩
  · rw [Thread.starts, here]
    simp only [edges, Option.bind_eq_bind, Option.bind_some, List.zipIdx_singleton,
      List.foldlM_cons, List.foldlM_nil]
    change ((settle n false (fuel + 6) false (bare (2 * rule + 1) false)).bind _).bind _ = _
    rw [settled]
    rfl
  · rw [finish?_reading (List.forall_mem_singleton.2 reading)]
    exact .atOpening (List.nil_append _) d.nonempty.1 d.opens

/-! ### The states of a match -/

/-- The states of the rule: those on the way through one of its rows, and those of the loop. -/
inductive Area (d : n.Delimited rule opening closing) : Set Nat where
  | row {stop q : Nat} {w : List Symbol} (ends : stop = d.loop ∨ stop = 2 * rule)
      (row : n.Row stop q w) : Area d q
  | between {stop q q' : Nat} {w : List Symbol} (leaves : n.LeavesBy q [.plain q'])
      (ends : stop = d.loop ∨ stop = 2 * rule) (row : n.Row stop q' w) : Area d q
  | again : Area d d.again
  | any : Area d d.any
  | behind : Area d d.behind
  | blockEnd : Area d d.blockEnd

/-- A state of the rule is its stop, or has plain edges and edges that read to other states of the
rule. -/
theorem Area.leaves {q : Nat} (h : d.Area q) : q = 2 * rule ∨ ∃ ts, n.LeavesBy q ts ∧
    ∀ t ∈ ts, d.Area t.target ∧ (t.isEpsilon = false ∨ t = .plain t.target) := by
  cases h with
  | row ends row =>
      cases row with
      | nil =>
          rcases ends with rfl | rfl
          · have leave : d.Area d.leave := .between d.leaves (.inr rfl) d.closes
            refine .inr ⟨_, d.decides, ?_⟩
            simpa [Transition.plain, Transition.target] using ⟨leave, .again⟩
          · exact .inl rfl
      | cons reads char goes rest =>
          exact .inr ⟨_, reads, List.forall_mem_singleton.2 ⟨.between goes ends rest, .inl rfl⟩⟩
  | between leaves ends row =>
      exact .inr ⟨_, leaves, List.forall_mem_singleton.2 ⟨.row ends row, .inr rfl⟩⟩
  | again => exact .inr ⟨_, d.repeats, List.forall_mem_singleton.2 ⟨.any, .inr rfl⟩⟩
  | any => exact .inr ⟨_, d.reads, List.forall_mem_singleton.2 ⟨.behind, .inl rfl⟩⟩
  | behind => exact .inr ⟨_, d.ends, List.forall_mem_singleton.2 ⟨.blockEnd, .inr rfl⟩⟩
  | blockEnd =>
      exact .inr ⟨_, d.returns, List.forall_mem_singleton.2
        ⟨.between d.loops (.inl rfl) .nil, .inr rfl⟩⟩

/-- The edges of the rule, but for those back to its callers. -/
theorem Area.edge {q : Nat} {s : State} {e : Transition} (h : d.Area q)
    (here : n.states[q]? = some s) (mem : e ∈ s.transitions)
    (inside : s.isRuleStop = false ∨ e.isEpsilon = false) :
    d.Area e.target ∧ (e.isEpsilon = false ∨ e = .plain e.target) := by
  rcases h.leaves with rfl | ⟨ts, ⟨s', here', -, rfl⟩, each⟩
  · obtain ⟨s', here', stop, -, silent⟩ := d.stops
    obtain rfl := Option.some.inj (here.symm.trans here')
    exact absurd inside (by simp [stop, silent e mem])
  · obtain rfl := Option.some.inj (here.symm.trans here')
    exact each e mem

/-- Scanners can follow the threads of the rule. -/
theorem isScannableFrom (d : n.Delimited rule opening closing) (wf : n.WellFormed) {start : Nat}
    (leaves : n.LeavesBy start [.plain (2 * rule + 1)]) : n.IsScannableFrom start d.Area := by
  constructor
  case toIsScannableIn =>
    constructor
    case wf => exact wf
    case target => exact fun known here mem inside => (Area.edge known here mem inside).1
    case unguarded =>
      intro q s e known here inside mem
      rcases (Area.edge known here mem (.inl inside)).2 with reading | plain
      · cases e with
        | predicate => cases reading
        | _ => rfl
      · rw [plain]
        rfl
    case follow =>
      intro q s target rule follow level known here inside mem
      rcases (Area.edge known here mem (.inl inside)).2 with reading | plain
      · cases reading
      · cases plain
  case opens =>
    intro s e here mem
    obtain ⟨s', here', -, edges⟩ := leaves
    obtain rfl := Option.some.inj (here.symm.trans here')
    rw [edges] at mem
    exact List.mem_singleton.1 mem ▸ .between d.begins (.inl rfl) d.opens

end Network.Delimited

open Scan in
/-- In a mode whose only rule is for delimited texts, a match takes the opening text with all that
is up to the end of the nearest closing text. If there is none, it takes nothing: it answers that the
input is at its end, or that no token begins there. -/
theorem matchToken_nearest {g : RuleSet} {n : Network} (complete : g.Complete)
    (lexer : g.kind = .lexer) (built : g.build = .ok n) {mode rule : Nat} {opening closing : String}
    (only : g.modes[mode]? = some [rule])
    (body : (rule, .delimited opening closing) ∈ g.definitions)
    (nonempty : opening ≠ "" ∧ closing ≠ "") {τ : Type} (u : LexerSetup τ) (s : Scanner τ)
    (network : u.grammar.network = n) (inside : s.input.position ≤ s.input.size)
    (enough : s.input.remaining.length + 6 ≤ u.fuel) (cached : Tables.Cached n s.tables) :
    let result := (matchToken u mode).run s
    let closes (between : List Symbol) :=
      Symbol.ofText opening ++ between ++ Symbol.ofText closing <+: s.input.remaining
    result.2.input.chars = s.input.chars ∧
    ((∃ between, closes between) → ∃ between,
      IsNearest (Symbol.ofText opening) (Symbol.ofText closing) s.input.remaining between ∧
      result.1 = .ok { type := (n.ruleTokens[rule]?).getD Symbol.eof } ∧
      result.2.input.position = s.input.position +
        (Symbol.ofText opening ++ between ++ Symbol.ofText closing).length) ∧
    ((¬ ∃ between, closes between) →
      if s.input.remaining = [] then
        result.1 = .ok { type := Symbol.eof } ∧ result.2.input.position = s.input.position
      else ∃ error, result.1 = .error (.recoverable error)) := by
  have known : rule < g.rules.length := complete.lt_of_mem body
  have wf := (RuleSet.holds_of_build built).1
  have chars : ∀ c ∈ s.input.remaining, 0 ≤ c ∧ c ≤ Symbol.lastChar := fun _ mem =>
    CharStream.char_of_mem_remaining mem
  obtain ⟨start, hstart, leaves⟩ := complete.exists_entry built only (by simpa using known)
  obtain ⟨d⟩ := complete.exists_delimited built nonempty body
  obtain ⟨fuel, hfuel⟩ : ∃ fuel, u.fuel = fuel + 6 := ⟨u.fuel - 6, by omega⟩
  have scannable := d.isScannableFrom wf leaves
  have sound := cached.soundAt scannable hstart ((RuleSet.kind_of_build built).trans lexer)
  obtain ⟨ts₀, starts, stage⟩ := d.exists_starts fuel leaves
  obtain ⟨outcome, s', run, -, same, ends⟩ :=
    matchToken_endsIn scannable network sound inside hstart
  rw [run]
  refine ⟨same, ?_⟩
  rcases ends with ⟨ts, stop, win, begins, scans, ends⟩ | ⟨-, lacking | ⟨ts, begins, stuck⟩⟩
  · obtain rfl := begins.unique ⟨_, starts⟩
    have nearest := stage.scans chars scans
    cases win with
    | none =>
        refine ⟨fun ⟨between, closes⟩ => absurd closes (nearest between), fun _ => ?_⟩
        obtain ⟨place, answer⟩ := ends
        split
        case isTrue none =>
            obtain rfl : stop = 0 := (none ▸ scans).stop_eq
            exact ⟨(if_pos ⟨rfl, none⟩).mp answer, congrArg Prod.fst place⟩
        case isFalse some => simpa [some] using answer
    | some f =>
        obtain ⟨between, nearest, length, rfl, bare⟩ := nearest
        obtain ⟨ok, place⟩ := ends
        refine ⟨fun _ => ⟨between, nearest, ?_, ?_⟩, fun none => absurd ⟨_, nearest.isPrefix⟩ none⟩
        · rw [ok, Finish.toMatch, bare]
        · rw [← length, ← Scanner.position_iterate_consume (length ▸ nearest.isPrefix.length_le)]
          exact congrArg Prod.fst place
  · rw [hfuel, starts] at lacking
    cases lacking
  · obtain rfl := begins.unique ⟨_, starts⟩
    rw [hfuel] at stuck
    exact (Network.Delimited.InStage.not_stuck stuck (.inr ⟨_, _, stage⟩) chars (by omega)).elim

/-- One rule, for texts from `<` to `aab`. -/
def tagged : RuleSet where
  kind := .lexer
  maxToken := 1
  rules := [{ tokenType := 1, body := some (.delimited "<" "aab") }]
  modes := [[0]]

/-- Matches with the lexer of `tagged`. -/
def taggedSetup (n : Network) : LexerSetup Unit where
  grammar := ⟨n, {}⟩
  host := {}
  fuel := 20

/-- In front of `<aaab>aab`, where two closing texts overlap as they begin. -/
def atTagged (tables : Tables) : Scanner Unit where
  input := .ofText "<aaab>aab" "tagged"
  host := ()
  tables := tables

open Scan in
/-- A second match of `<aaab>aab` ends behind `<aaab`, too. -/
theorem matchToken_nearest_tagged : ∃ n, tagged.build = .ok n ∧
    let first := (matchToken (taggedSetup n) 0).run (atTagged (.ofNetwork n))
    let second := (matchToken (taggedSetup n) 0).run (atTagged first.2.tables)
    second.1 = .ok { type := 1 } ∧ second.2.input.position = 5 := by
  have tokens : tagged.build.toOption.map Network.ruleTokens = some #[1] := by decide +kernel
  have complete : tagged.Complete := by
    constructor
    · decide
    · simp [RuleSet.definitions, tagged, Element.delimited, Element.Formed]
  cases built : tagged.build with
  | error e => simp [built, Except.toOption] at tokens
  | ok n =>
      have type : n.ruleTokens = #[1] := by simpa [built, Except.toOption] using tokens
      have inside (tables : Tables) :
          (atTagged tables).input.position ≤ (atTagged tables).input.size := Nat.zero_le _
      have ahead (tables : Tables) :
          (atTagged tables).input.remaining = Symbol.ofText "<aaab>aab" := rfl
      have cached : Tables.Cached n
          ((matchToken (taggedSetup n) 0).run (atTagged (.ofNetwork n))).2.tables :=
        .matched (taggedSetup n) rfl 0 (atTagged (.ofNetwork n)) (inside _) .fresh
      have only : tagged.modes[0]? = some [0] := rfl
      have enough : (Symbol.ofText "<aaab>aab").length + 6 ≤ 20 := by decide
      obtain ⟨-, closed, -⟩ := matchToken_nearest complete rfl built only (.head _) (by decide)
        (taggedSetup n) (atTagged _) rfl (inside _) enough cached
      rw [ahead] at closed
      obtain ⟨between, nearest, ok, position⟩ := closed ⟨[97], by decide⟩
      have short : between.length ≤ 1 := nearest.nearest [97] (by decide)
      have long : between ≠ [] := by
        rintro rfl
        exact absurd nearest.isPrefix (by decide)
      refine ⟨n, rfl, ok.trans (by simp [type]), position.trans ?_⟩
      have some := List.length_pos_iff.2 long
      simp only [List.length_append]
      change 0 + (1 + between.length + 3) = 5
      omega

end AdaptiveLL
