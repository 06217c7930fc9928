import AdaptiveLL.Proofs.Lexer.Denotation
import AdaptiveLL.Proofs.Lexer.Match
/-!
The longest match wins, and of equally long ones the first rule. The statement is about the
language of the lexer: a match takes the longest prefix of the input that a token rule of the
mode derives, and gives it the type of the first rule that derives it, whatever earlier matches
have left in the prediction tables.
-/
namespace AdaptiveLL

namespace Network

/-- From the start state of `rule`, or whatever the state is, the characters lead to the end of
a rule. -/
def DerivesFrom (n : Network) (start : Nat) (w : List Symbol) (rule : Nat) : Prop :=
  ∃ q s, n.Run 0 Symbol.lastChar (start, []) w (q, []) ∧ n.states[q]? = some s ∧
    s.isRuleStop = true ∧ s.rule = rule

/-- The edge number `i` of a lexer mode leads to the derivation of the characters by a rule. -/
def Derives (n : Network) (mode i : Nat) (w : List Symbol) (rule : Nat) : Prop :=
  ∃ start s e, n.modes[mode]? = some start ∧ n.states[start]? = some s ∧
    s.transitions[i]? = some e ∧ n.DerivesFrom e.target w rule

/-- Of the characters ahead, `w` is the longest prefix that is derived in the mode, and `i` the
first edge that derives it. -/
structure IsLongest (n : Network) (mode : Nat) (ahead w : List Symbol) (i rule : Nat) : Prop where
  isPrefix : w <+: ahead
  derives : n.Derives mode i w rule
  longest : ∀ v j rule', v <+: ahead → n.Derives mode j v rule' → v.length ≤ w.length
  first : ∀ j rule', n.Derives mode j w rule' → i ≤ j

end Network

namespace Thread

variable {n : Network} {mode start : Nat} {s : State} {ts ts' : List Thread}
  {w v cs : List Symbol} {x : Symbol}

/-- The last finish at a prefix of `w`: there is none and no prefix is derived, or it belongs to
the longest derived prefix and its first edge. -/
def IsBest (n : Network) (mode : Nat) (w : List Symbol) : Option Finish → Prop
  | none => ∀ v i rule, v <+: w → ¬ n.Derives mode i v rule
  | some f => ∃ v i, n.IsLongest mode w v i f.rule ∧ v.length = f.length

/-- What is derived ends at a place where a thread is kept. -/
theorem exists_of_derives (hstart : n.modes[mode]? = some start)
    (here : n.states[start]? = some s) (denotes : Denotes n s.transitions w ts) {i rule : Nat}
    (derives : n.Derives mode i w rule) :
    ∃ t ∈ ts, t.alt = i + 1 ∧ ∃ q, n.states[t.state]? = some q ∧ q.isRuleStop = true := by
  obtain ⟨start', s', e, hstart', here', edge, q, stop, run, hq, isStop, -⟩ := derives
  obtain rfl := Option.some.inj (hstart.symm.trans hstart')
  obtain rfl := Option.some.inj (here.symm.trans here')
  have mem : (e, i) ∈ s.transitions.zipIdx := List.mem_zipIdx_iff_getElem?.2 edge
  have keeps : n.Keeps (q, []) := ⟨stop, hq, .inl ⟨isStop, rfl⟩⟩
  obtain ⟨t, memT, alt, place⟩ := denotes.complete (e, i) mem (q, []) ⟨keeps, run⟩
  obtain ⟨rfl, -⟩ := Prod.mk.inj place
  exact ⟨t, memT, alt, stop, hq, isStop⟩

/-- The first finished thread belongs to the first edge that derives the characters. -/
theorem derives_of_verdict (hstart : n.modes[mode]? = some start)
    (here : n.states[start]? = some s) (denotes : Denotes n s.transitions w ts) {t : Thread}
    {rule : Nat} (h : verdict n ts = some (t, rule)) :
    ∃ i, n.Derives mode i w rule ∧ ∀ j rule', n.Derives mode j w rule' → i ≤ j := by
  obtain ⟨mem, ⟨stop, hq, isStop, rfl⟩, least⟩ := verdict_of_sorted denotes.sorted h
  obtain ⟨⟨e, i⟩, memE, isOf, keeps, run⟩ := denotes.sound t mem
  have edge := List.mem_zipIdx_iff_getElem?.1 memE
  refine ⟨i, ⟨start, s, e, hstart, here, edge, t.state, stop, ?_, hq, isStop, rfl⟩, ?_⟩
  · obtain ⟨stop', hq', kept⟩ := keeps
    obtain rfl := Option.some.inj (hq.symm.trans hq')
    have bottom : t.place.2 = [] := by simpa [isStop] using kept
    exact (Prod.ext rfl bottom : t.place = (t.state, [])) ▸ run
  · intro j rule' derives
    obtain ⟨t', mem', alt', q', hq', isStop'⟩ := exists_of_derives hstart here denotes derives
    have le := least t' mem' q' hq' isStop'
    have alt : t.alt = i + 1 := isOf.1
    omega

theorem not_derives_of_verdict (hstart : n.modes[mode]? = some start)
    (here : n.states[start]? = some s) (denotes : Denotes n s.transitions w ts)
    (h : verdict n ts = none) (i rule : Nat) : ¬ n.Derives mode i w rule := by
  intro derives
  obtain ⟨t, mem, -, q, hq, isStop⟩ := exists_of_derives hstart here denotes derives
  cases isStop.symm.trans (not_stop_of_verdict h mem hq)

/-- Where no threads are left, no longer word is derived. -/
theorem not_derives_of_dead (hstart : n.modes[mode]? = some start)
    (here : n.states[start]? = some s) (denotes : Denotes n s.transitions w [])
    (longer : w <+: v) (i rule : Nat) : ¬ n.Derives mode i v rule := by
  rintro ⟨start', s', e, hstart', here', edge, q, stop, run, hq, isStop, -⟩
  obtain rfl := Option.some.inj (hstart.symm.trans hstart')
  obtain rfl := Option.some.inj (here.symm.trans here')
  obtain ⟨rest, rfl⟩ := longer
  obtain ⟨p, before, after⟩ := Network.run_append.1 run
  obtain ⟨p₁, path, keeps⟩ := after.exists_keeps ⟨stop, hq, .inl ⟨isStop, rfl⟩⟩
  have run₁ : n.Run 0 Symbol.lastChar (e.target, []) w p₁ := by
    simpa using Network.run_append.2 ⟨p, before, Network.run_nil.2 path⟩
  obtain ⟨t, mem, -⟩ := denotes.complete (e, i) (List.mem_zipIdx_iff_getElem?.2 edge) p₁ ⟨keeps, run₁⟩
  cases mem

/-- The last finish stays the best one if no longer prefix is derived. -/
theorem IsBest.append {last : Option Finish} (best : IsBest n mode w last)
    (none : ∀ v i rule, v <+: w ++ cs → ¬ v <+: w → ¬ n.Derives mode i v rule) :
    IsBest n mode (w ++ cs) last := by
  have short {v : List Symbol} {i rule : Nat} (isPrefix : v <+: w ++ cs)
      (derives : n.Derives mode i v rule) : v <+: w := by
    by_contra longer
    exact none v i rule isPrefix longer derives
  cases last with
  | none => exact fun v i rule isPrefix derives => best v i rule (short isPrefix derives) derives
  | some f =>
      obtain ⟨v, i, longest, length⟩ := best
      refine ⟨v, i, ⟨longest.isPrefix.trans (List.prefix_append ..), longest.derives, ?_,
        longest.first⟩, length⟩
      exact fun v' j rule isPrefix derives => longest.longest v' j rule (short isPrefix derives) derives

/-- A finish with all the characters is the best one; without one, the last finish stays. -/
theorem isBest_finish (hstart : n.modes[mode]? = some start) (here : n.states[start]? = some s)
    (denotes : Denotes n s.transitions w ts) {last : Option Finish}
    (best : verdict n ts = none → IsBest n mode w last) :
    IsBest n mode w ((finish? n w.length ts).or last) := by
  rw [finish?]
  cases h : verdict n ts with
  | none => exact best h
  | some found =>
      obtain ⟨t, rule⟩ := found
      obtain ⟨i, derives, first⟩ := derives_of_verdict hstart here denotes h
      exact ⟨w, i, ⟨List.prefix_rfl, derives, fun _ _ _ isPrefix _ => isPrefix.length_le, first⟩, rfl⟩

/-- The threads of a match take the longest derived prefix, and the first edge for it. -/
theorem Scans.isBest (plain : n.IsPlain) (wf : n.WellFormed) (hstart : n.modes[mode]? = some start)
    (here : n.states[start]? = some s) {stop : Nat} {last win : Option Finish}
    (scans : Scans n cs w.length ts last stop win) (denotes : Denotes n s.transitions w ts)
    (best : IsBest n mode w last) : IsBest n mode (w ++ cs) win := by
  generalize length : w.length = k at scans
  induction scans generalizing w with
  | @ended cs k ts last dead =>
      obtain ⟨fuel, offset, dead⟩ := dead
      cases cs with
      | nil => simpa using best
      | cons c cs =>
          have denotes' := reach_denotes plain wf denotes dead
          refine best.append fun v i rule isPrefix longer => ?_
          refine not_derives_of_dead hstart here denotes' ?_ i rule
          rcases List.prefix_or_prefix_of_prefix isPrefix (⟨cs, by simp⟩ : w ++ [c] <+: w ++ c :: cs)
            with shorter | isPrefix
          · rcases List.prefix_concat_iff.1 shorter with rfl | shorter
            · exact List.prefix_rfl
            · exact absurd shorter longer
          · exact isPrefix
  | @read c cs k stop ts ts' last win next alive _ ih =>
      obtain ⟨fuel, offset, next⟩ := next
      have denotes' := reach_denotes plain wf denotes next
      subst length
      have best' := isBest_finish hstart here denotes' fun none =>
        best.append fun v i rule isPrefix longer => by
          rcases List.prefix_concat_iff.1 isPrefix with rfl | shorter
          · exact not_derives_of_verdict hstart here denotes' none i rule
          · exact absurd shorter longer
      simp only [List.length_append, List.length_singleton] at best'
      simpa using ih denotes' best' (by simp)
  | finishAtEnd next alive =>
      obtain ⟨fuel, offset, next⟩ := next
      exact absurd (reach_eof plain wf denotes next) alive
  | goOnAtEnd next alive =>
      obtain ⟨fuel, offset, next⟩ := next
      exact absurd (reach_eof plain wf denotes next) alive

/-- Closures that may be deeper than the silent moves go, over no more characters than symbols
may be read, do not get stuck. -/
theorem not_stuck (plain : n.IsPlain) (wf : n.WellFormed) (here : n.states[start]? = some s)
    {depth fuel symbols k : Nat} {all : List Symbol}
    (settles : ∀ p ∈ {p : Place | ∃ e ∈ s.transitions, p = (e.target, [])}, ∀ v, v <+: all →
      ∀ p', n.Run 0 Symbol.lastChar p v p' → n.SettlesWithin depth p')
    (enough : depth < fuel) (stuck : Stuck n fuel symbols cs k ts)
    (denotes : Denotes n s.transitions w ts) (split : w ++ cs = all) (more : cs.length < symbols) :
    False := by
  induction stuck generalizing w with
  | tooLong => exact absurd more (Nat.not_lt_zero _)
  | @tooDeep symbols k cs ts lacking =>
      have kept : ∀ t ∈ ts, t.passedNonGreedy = false ∧ n.Keeps t.place := fun t mem => by
        obtain ⟨e, -, isOf, keeps, -⟩ := denotes.sound t mem
        exact ⟨isOf.2, keeps⟩
      have reaches := reach_isSome (x := cs.headD Symbol.eof) plain wf kept (fun t mem p read => ?_)
        enough k
      · rw [lacking] at reaches
        cases reaches
      · obtain ⟨⟨e, i⟩, memE, -, -, run⟩ := denotes.sound t mem
        have memE : e ∈ s.transitions := List.mem_of_getElem? (List.mem_zipIdx_iff_getElem?.1 memE)
        have inRange : n.InRange (e.target, []) := ⟨wf.target_lt here memE, by simp⟩
        refine ⟨(inRange.run wf run).reads wf read, ?_⟩
        cases cs with
        | nil =>
            cases read with
            | edge here' _ mem' reads =>
                cases (plain.noEofLabel _ (Array.mem_of_getElem? here') _ mem').symm.trans reads
        | cons c cs =>
            refine settles _ ⟨e, memE, rfl⟩ (w ++ [c]) ⟨cs, by simpa using split⟩ p ?_
            exact Network.run_append.2 ⟨_, run, .read read (.refl p)⟩
  | read next _ ih =>
      obtain ⟨fuel, offset, next⟩ := next
      exact ih (reach_denotes plain wf denotes next) (by simpa using split)
        (Nat.lt_of_succ_lt_succ more)
  | goOnAtEnd next alive =>
      obtain ⟨fuel, offset, next⟩ := next
      exact alive (reach_eof plain wf denotes next)

end Thread

namespace Scanner

variable {τ : Type}

theorem position_iterate_consume {s : Scanner τ} {k : Nat} (ahead : k ≤ s.input.remaining.length) :
    (consume^[k] s).input.position = s.input.position + k := by
  induction k with
  | zero => rfl
  | succ k ih =>
      have size : (consume^[k] s).input.size = s.input.size :=
        congrArg Array.size (chars_iterate_consume k s)
      rw [CharStream.length_remaining] at ahead ih
      rw [Function.iterate_succ_apply', input_consume, CharStream.consume]
      change min ((consume^[k] s).input.position + 1) (consume^[k] s).input.size = _
      rw [size, ih (by omega)]
      omega

end Scanner

open Scan in
/-- A match succeeds if a prefix of the characters ahead is derived in the mode or none are
ahead. It then leaves the input behind the longest derived prefix, and gives the type of the
first rule of the mode that derives it. -/
theorem matchToken_longest {plan : Blueprint} {n : Network}
    (built : Network.assemble .lexer plan = .ok n) (small : n.states.size ≤ noState)
    (plain : n.IsPlain) (acyclic : n.NoSilentCycle) {mode : Nat} (valid : mode < n.modes.size)
    (input : CharStream) (inside : input.position ≤ input.size) :
    ∃ bound, ∀ {τ : Type} (u : LexerSetup τ) (s : Scanner τ), u.grammar.network = n →
      bound ≤ u.fuel → s.input = input → Tables.Cached n s.tables →
      let result := (matchToken u mode).run s
      ((∃ m, result.1 = .ok m) ↔
        (∃ w i rule, w <+: input.remaining ∧ n.Derives mode i w rule) ∨ input.remaining = []) ∧
      ((∃ w i rule, w <+: input.remaining ∧ n.Derives mode i w rule) →
        ∃ m w i rule, result.1 = .ok m ∧ n.IsLongest mode input.remaining w i rule ∧
          result.2.input.chars = input.chars ∧
          result.2.input.position = input.position + w.length ∧
          m.type = (n.ruleTokens[rule]?).getD Symbol.eof) := by
  have wf := Network.wellFormed_of_assemble built
  have scannable : n.IsScannable := ⟨wf, small, plain.unguarded⟩
  have lexer := Network.kind_of_assemble built
  obtain ⟨start, hstart⟩ : ∃ start, n.modes[mode]? = some start :=
    ⟨_, Array.getElem?_eq_getElem valid⟩
  obtain ⟨st, here⟩ : ∃ st, n.states[start]? = some st :=
    ⟨_, Array.getElem?_eq_getElem (wf.mode_lt hstart)⟩
  have finite : {p : Place | ∃ e ∈ st.transitions, p = (e.target, [])}.Finite := by
    refine (List.finite_toSet (st.transitions.map fun e => ((e.target, []) : Place))).subset ?_
    rintro p ⟨e, mem, rfl⟩
    exact List.mem_map.2 ⟨e, mem, rfl⟩
  obtain ⟨depth, settles⟩ := Network.exists_settlesWithin_of_run acyclic 0 Symbol.lastChar
    finite input.remaining
  refine ⟨max depth input.remaining.length + 1, ?_⟩
  rintro τ u s hu enough rfl cached
  have sound := cached.sound scannable lexer
  obtain ⟨outcome, s', run, -, chars, ends⟩ :=
    matchToken_ends scannable hu sound inside hstart
  rw [run]
  rcases ends with ⟨ts, stop, win, begins, scans, ends⟩ | ⟨-, lacking | ⟨ts, begins, stuck⟩⟩
  · obtain ⟨fuel, begins⟩ := begins
    have denotes := Thread.starts_denotes plain here begins
    have best : Thread.IsBest n mode s.input.remaining win := by
      have empty : Thread.verdict n ts = none → Thread.IsBest n mode [] none := by
        rintro none v i rule isPrefix
        obtain rfl := List.prefix_nil.1 isPrefix
        exact Thread.not_derives_of_verdict hstart here denotes none i rule
      have best₀ := Thread.isBest_finish hstart here denotes empty
      rw [Option.or_none] at best₀
      exact Thread.Scans.isBest plain wf hstart here scans denotes best₀
    cases win with
    | none =>
        have underived : ¬ ∃ w i rule, w <+: s.input.remaining ∧ n.Derives mode i w rule := by
          rintro ⟨w, i, rule, isPrefix, derives⟩
          exact best w i rule isPrefix derives
        refine ⟨?_, fun derived => absurd derived underived⟩
        have outcome_eq := ends.2
        rw [or_iff_right underived]
        split at outcome_eq
        case isTrue done =>
            exact ⟨fun _ => done.2, fun _ => ⟨_, outcome_eq⟩⟩
        case isFalse going =>
            obtain ⟨error, failed⟩ := outcome_eq
            refine ⟨?_, fun done => absurd ⟨(done ▸ scans).stop_eq, done⟩ going⟩
            rintro ⟨m, ok⟩
            cases failed.symm.trans ok
    | some f =>
        obtain ⟨w, i, longest, length⟩ := best
        obtain ⟨ok, place⟩ := ends
        refine ⟨⟨fun _ => .inl ⟨w, i, _, longest.isPrefix, longest.derives⟩, fun _ => ⟨_, ok⟩⟩,
          fun _ => ⟨_, w, i, f.rule, ok, longest, chars, ?_, rfl⟩⟩
        refine (congrArg Prod.fst place).trans ?_
        rw [length]
        exact Scanner.position_iterate_consume (length ▸ longest.isPrefix.length_le)
  · have starts := Thread.starts_isSome plain wf here
      (fun e mem => settles _ ⟨e, mem, rfl⟩ [] List.nil_prefix _ (.refl _))
      (by omega : depth < u.fuel)
    rw [lacking] at starts
    cases starts
  · obtain ⟨fuel, begins⟩ := begins
    exact (Thread.not_stuck plain wf here settles (by omega) stuck
      (Thread.starts_denotes plain here begins) rfl (by omega)).elim

/-- Two rules, `ab` with its second character in a fragment rule, and `a`. -/
def letters : Blueprint where
  maxToken := 2
  states := [
    { rule := 0, kind := .tokensStart, transitions := [.plain 1, .plain 4] },
    { rule := 0, kind := .ruleStart 3 false, transitions := [.atom 2 97] },
    { rule := 0, kind := .basic, transitions := [.call 6 2 0 3] },
    { rule := 0, kind := .ruleStop },
    { rule := 1, kind := .ruleStart 5 false, transitions := [.atom 5 97] },
    { rule := 1, kind := .ruleStop },
    { rule := 2, kind := .ruleStart 7 false, transitions := [.atom 7 98] },
    { rule := 2, kind := .ruleStop }]
  rules := [⟨1, some 1⟩, ⟨4, some 2⟩, ⟨6, none⟩]
  modes := [0]
  decisions := [0]

/-- The lexer of `letters`, where the end of the fragment rule goes back to its caller. -/
def lettersNetwork : Network where
  kind := .lexer
  maxToken := 2
  states := #[
    { rule := 0, kind := .tokensStart, transitions := [.plain 1, .plain 4], decision := some 0 },
    { rule := 0, kind := .ruleStart 3 false, transitions := [.atom 2 97] },
    { rule := 0, kind := .basic, transitions := [.call 6 2 0 3] },
    { rule := 0, kind := .ruleStop },
    { rule := 1, kind := .ruleStart 5 false, transitions := [.atom 5 97] },
    { rule := 1, kind := .ruleStop },
    { rule := 2, kind := .ruleStart 7 false, transitions := [.atom 7 98] },
    { rule := 2, kind := .ruleStop, transitions := [.epsilon 3 none] }]
  decisions := #[0]
  ruleStarts := #[1, 4, 6]
  ruleStops := #[3, 5, 7]
  ruleTokens := #[1, 2, 0]
  modes := #[0]
  actions := #[]

theorem derives_letters : lettersNetwork.Derives 0 0 [97, 98] 0 := by
  refine ⟨0, _, .plain 1, rfl, rfl, rfl, 3, _, ?_, rfl, rfl, rfl⟩
  refine .read (.edge (t := .atom 2 97) rfl (by decide) (by decide) (by decide)) ?_
  refine .silent (.edge (t := .call 6 2 0 3) rfl (by decide) (by decide) rfl) ?_
  refine .read (.edge (t := .atom 7 98) rfl (by decide) (by decide) (by decide)) ?_
  exact .silent (.back rfl rfl) (.refl _)

open Scan in
/-- Of `a` and `ab`, both at the start of `ab`, the lexer of `letters` takes `ab`. -/
theorem matchToken_longest_letters : ∃ bound, ∀ {τ : Type} (u : LexerSetup τ) (s : Scanner τ),
    u.grammar.network = lettersNetwork → bound ≤ u.fuel → s.input = .ofText "ab" "letters" →
      Tables.Cached lettersNetwork s.tables →
        ∃ m, ((matchToken u 0).run s).1 = .ok m ∧ ((matchToken u 0).run s).2.input.position = 2 := by
  have built : Network.assemble .lexer letters = .ok lettersNetwork := by decide +kernel
  have descends : lettersNetwork.Descends fun q => if q = 0 ∨ q = 2 then 3 else 1 := by decide
  have valid : 0 < lettersNetwork.modes.size := by decide
  obtain ⟨bound, longest⟩ := matchToken_longest built (by decide) (by decide)
    (Network.noSilentCycle_of_descends descends) valid (.ofText "ab" "letters") (by decide)
  refine ⟨bound, fun u s hu enough input cached => ?_⟩
  obtain ⟨m, w, i, rule, ok, best, -, position, -⟩ :=
    (longest u s hu enough input cached).2 ⟨_, 0, 0, List.prefix_rfl, derives_letters⟩
  have short : w.length ≤ 2 := best.isPrefix.length_le
  have long : 2 ≤ w.length := best.longest _ 0 0 List.prefix_rfl derives_letters
  refine ⟨m, ok, position.trans ?_⟩
  change 0 + w.length = 2
  omega

end AdaptiveLL
