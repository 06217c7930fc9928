import AdaptiveLL.Proofs.Lexer.Cache
import AdaptiveLL.Proofs.Stream.CharStream
import Mathlib.Logic.Function.Iterate
/-!
One match, as a run of threads over the characters that are left. Whatever the tables hold, a
match reads on as long as the threads live, remembers the last length at which one of them had
finished, and goes back to it in the end.
-/
namespace AdaptiveLL

/-- A thread that has finished its rule, and how far it has read. -/
structure Finish where
  length : Nat
  thread : Thread
  rule : Nat

/-- The token of the rule. -/
def Finish.toMatch (n : Network) (f : Finish) : Match where
  type := (n.ruleTokens[f.rule]?).getD Symbol.eof
  actions := f.thread.actions

namespace Thread

variable {n : Network}

/-- The first of the threads that have finished at a length. -/
def finish? (n : Network) (length : Nat) (ts : List Thread) : Option Finish :=
  (verdict n ts).map fun (thread, rule) => { length, thread, rule }

/-- The threads read the characters `cs`, the first of them after `k` others. The last finish
before is `last`. They have all ended after `stop` characters, and the last finish is `win`. -/
inductive Scans (n : Network) :
    List Symbol → Nat → List Thread → Option Finish → Nat → Option Finish → Prop where
  | ended {cs : List Symbol} {k : Nat} {ts : List Thread} {last : Option Finish}
      (dead : LeadTo n ts (cs.headD Symbol.eof) []) : Scans n cs k ts last k last
  | read {c : Symbol} {cs : List Symbol} {k stop : Nat} {ts ts' : List Thread}
      {last win : Option Finish} (next : LeadTo n ts c ts') (alive : ts' ≠ [])
      (rest : Scans n cs (k + 1) ts' ((finish? n (k + 1) ts').or last) stop win) :
      Scans n (c :: cs) k ts last stop win
  | finishAtEnd {k : Nat} {ts ts' : List Thread} {last : Option Finish} {win : Finish}
      (next : LeadTo n ts Symbol.eof ts') (alive : ts' ≠ [])
      (finished : finish? n k ts' = some win) : Scans n [] k ts last k (some win)
  | goOnAtEnd {k stop : Nat} {ts ts' : List Thread} {last win : Option Finish}
      (next : LeadTo n ts Symbol.eof ts') (alive : ts' ≠ []) (unfinished : finish? n k ts' = none)
      (rest : Scans n [] k ts' last stop win) : Scans n [] k ts last stop win

/-- The threads cannot read on, because closures take more than `fuel` silent moves or there
are more than `symbols` symbols. -/
inductive Stuck (n : Network) (fuel : Nat) : Nat → List Symbol → Nat → List Thread → Prop where
  | tooLong {cs : List Symbol} {k : Nat} {ts : List Thread} : Stuck n fuel 0 cs k ts
  | tooDeep {symbols k : Nat} {cs : List Symbol} {ts : List Thread}
      (lacking : reach n fuel k ts (cs.headD Symbol.eof) = none) :
      Stuck n fuel (symbols + 1) cs k ts
  | read {symbols k : Nat} {c : Symbol} {cs : List Symbol} {ts ts' : List Thread}
      (next : LeadTo n ts c ts') (rest : Stuck n fuel symbols cs (k + 1) ts') :
      Stuck n fuel (symbols + 1) (c :: cs) k ts
  | goOnAtEnd {symbols k : Nat} {ts ts' : List Thread} (next : LeadTo n ts Symbol.eof ts')
      (alive : ts' ≠ []) (rest : Stuck n fuel symbols [] k ts') :
      Stuck n fuel (symbols + 1) [] k ts

theorem Scans.le_stop {cs : List Symbol} {k stop : Nat} {ts : List Thread}
    {last win : Option Finish} (h : Scans n cs k ts last stop win) : k ≤ stop := by
  induction h with
  | ended => exact Nat.le_refl _
  | read _ _ _ ih => exact Nat.le_of_succ_le ih
  | finishAtEnd => exact Nat.le_refl _
  | goOnAtEnd _ _ _ _ ih => exact ih

/-- Without characters ahead, none are read. -/
theorem Scans.stop_eq {k stop : Nat} {ts : List Thread} {last win : Option Finish}
    (h : Scans n [] k ts last stop win) : stop = k := by
  generalize none : ([] : List Symbol) = cs at h
  induction h with
  | ended => rfl
  | read => cases none
  | finishAtEnd => rfl
  | goOnAtEnd _ _ _ _ ih => exact ih none

end Thread

namespace Scanner

variable {τ : Type} {s s' s₀ : Scanner τ} {k : Nat}

/-- The cursor, with its line and column. -/
def place (s : Scanner τ) : Nat × Nat × Nat :=
  (s.input.position, s.line, s.column)

/-- The scanner stands where `s₀` stands after `k` characters of the same text. -/
structure Stands (s₀ : Scanner τ) (k : Nat) (s : Scanner τ) : Prop where
  chars : s.input.chars = s₀.input.chars
  place : s.place = (consume^[k] s₀).place

theorem input_consume (s : Scanner τ) : s.consume.input = s.input.consume := by
  unfold consume
  split <;> rfl

theorem tables_consume (s : Scanner τ) : s.consume.tables = s.tables := by
  unfold consume
  split <;> rfl

theorem start_consume (s : Scanner τ) : s.consume.start = s.start := by
  unfold consume
  split <;> rfl

theorem consume_place_congr (chars : s.input.chars = s'.input.chars) (place : s.place = s'.place) :
    s.consume.place = s'.consume.place := by
  obtain ⟨position, lineColumn⟩ := Prod.mk.inj place
  obtain ⟨line, column⟩ := Prod.mk.inj lineColumn
  have look : s.input.lookahead 1 = s'.input.lookahead 1 := by
    simp only [CharStream.lookahead, chars, position]
  simp only [consume, Scanner.place, look]
  split <;> simp [CharStream.consume, CharStream.size, chars, position, line, column]

theorem chars_iterate_consume (k : Nat) (s : Scanner τ) :
    (consume^[k] s).input.chars = s.input.chars := by
  induction k generalizing s with
  | zero => rfl
  | succ k ih =>
      rw [Function.iterate_succ_apply, ih, input_consume]
      rfl

theorem Stands.consume (h : Stands s₀ k s) : Stands s₀ (k + 1) s.consume := by
  constructor
  · exact (chars_iterate_consume 1 s).trans h.chars
  · rw [Function.iterate_succ_apply']
    exact consume_place_congr (h.chars.trans (chars_iterate_consume k s₀).symm) h.place

theorem position_iterate_consume_le (inside : s.input.position ≤ s.input.size) (k : Nat) :
    (consume^[k] s).input.position ≤ s.input.size := by
  cases k with
  | zero => exact inside
  | succ k =>
      rw [Function.iterate_succ_apply', input_consume]
      refine (CharStream.consume_position_le _).trans_eq ?_
      change (consume^[k] s).input.chars.size = s.input.chars.size
      rw [chars_iterate_consume]

theorem remaining_of_chars (chars : s.input.chars = s'.input.chars) (place : s.place = s'.place) :
    s.input.remaining = s'.input.remaining := by
  obtain ⟨position, -⟩ := Prod.mk.inj place
  simp only [CharStream.remaining, chars, position]

end Scanner

namespace Scan

variable {τ : Type} {u : LexerSetup τ} {n : Network} {mode : Nat} {s s₀ : Scanner τ}
  {ts : List Thread} {k : Nat} {cs : List Symbol}

/-- What is remembered is where the threads last finished. -/
def Remembers (n : Network) (s₀ : Scanner τ) (last : Option Acceptance) (win : Option Finish) :
    Prop :=
  Option.Rel (fun a f => (a.position, a.line, a.column) = (Scanner.consume^[f.length] s₀).place ∧
    a.state.tokenType = n.ruleTokens[f.rule]? ∧ a.state.actions = f.thread.actions) last win

/-- How a match ends that began at `s₀` with the characters `cs` ahead. -/
def Ends (n : Network) (s₀ : Scanner τ) (cs : List Symbol) (stop : Nat) (win : Option Finish)
    (result : Except Failure Match × Scanner τ) : Prop :=
  match win with
  | some f => result.1 = .ok (f.toMatch n) ∧
      result.2.place = (Scanner.consume^[f.length] s₀).place
  | none => result.2.place = (Scanner.consume^[stop] s₀).place ∧
      if stop = 0 ∧ cs = [] then result.1 = .ok { type := Symbol.eof }
      else ∃ error, result.1 = .error (.recoverable error)

/-- Once a character has been read, it does not matter which ones were ahead. -/
theorem Ends.of_pos {stop : Nat} {win : Option Finish} {result : Except Failure Match × Scanner τ}
    (h : Ends n s₀ cs stop win result) (read : 0 < stop) (cs' : List Symbol) :
    Ends n s₀ cs' stop win result := by
  cases win with
  | some f => exact h
  | none =>
      have started (cs : List Symbol) : ¬ (stop = 0 ∧ cs = []) := fun h => read.ne' h.1
      simpa only [Ends, started, if_false] using h

theorem isAccept_eq {state : TableState} (has : s.tables.Has n mode state ts) (k : Nat) :
    state.isAccept = (Thread.finish? n k ts).isSome := by
  obtain ⟨table, -, -, verdict⟩ := has
  rw [verdict.accepts, Thread.finish?, Option.isSome_map]

/-- A match that began at `s₀` is under way: after `k` characters the scanner has the characters `cs`
ahead, and remembers where the threads last finished. -/
structure UnderWay (n : Network) (s₀ : Scanner τ) (cs : List Symbol) (k : Nat) (win : Option Finish)
    (last : Option Acceptance) (s : Scanner τ) : Prop where
  stands : s₀.Stands k s
  offset : s.input.position = s.start + k
  ahead : s.input.remaining = cs
  remembers : Remembers n s₀ last win

namespace UnderWay

variable {last : Option Acceptance} {win : Option Finish} {c : Symbol} {s' : Scanner τ}

/-- It does not matter what the tables learn. -/
theorem learns (h : UnderWay n s₀ cs k win last s) (learns : s.Learns n mode s') :
    UnderWay n s₀ cs k win last s' := by
  rw [learns.same]
  exact ⟨⟨h.stands.chars, h.stands.place⟩, h.offset, h.ahead, h.remembers⟩

theorem ne_eof (h : UnderWay n s₀ (c :: cs) k win last s) : c ≠ Symbol.eof := by
  have char := (CharStream.char_of_mem_remaining (h.ahead ▸ List.mem_cons_self : c ∈ _)).1
  rintro rfl
  exact absurd char (by decide)

/-- The next character is read. -/
theorem consume (h : UnderWay n s₀ (c :: cs) k win last s) :
    UnderWay n s₀ cs (k + 1) win last s.consume := by
  have within : s.input.position < s.input.size := by
    have := CharStream.length_remaining s.input
    rw [h.ahead, List.length_cons] at this
    omega
  refine ⟨h.stands.consume, ?_, ?_, h.remembers⟩
  · have offset := h.offset
    rw [Scanner.input_consume, Scanner.start_consume, CharStream.consume]
    change min (s.input.position + 1) s.input.size = _
    omega
  · rw [Scanner.input_consume, CharStream.remaining_consume within.le, h.ahead]
    rfl

/-- Whether the threads have finished here is remembered. -/
theorem remember {state : TableState} (h : UnderWay n s₀ cs k win last s)
    (has : s.tables.Has n mode state ts) : ∃ last', (acceptance state last).run s = (.ok last', s) ∧
      UnderWay n s₀ cs k ((Thread.finish? n k ts).or win) last' s := by
  obtain ⟨table, -, -, verdict⟩ := has
  unfold acceptance
  rw [verdict.accepts, Thread.finish?]
  cases finished : Thread.verdict n ts with
  | none => exact ⟨last, rfl, h⟩
  | some f =>
      obtain ⟨token, actions⟩ := verdict.token _ _ finished
      exact ⟨_, rfl, h.stands, h.offset, h.ahead, .some ⟨h.stands.place, token, actions⟩⟩

/-- All threads have ended. -/
theorem conclude (h : UnderWay n s₀ cs k win last s) (inside : s₀.input.position ≤ s₀.input.size)
    (source : TableState) : ∃ outcome s',
      (conclude source (cs.headD Symbol.eof) last).run s = (outcome, s') ∧ s'.tables = s.tables ∧
      s'.input.chars = s₀.input.chars ∧ Ends n s₀ cs k win (outcome, s') := by
  obtain ⟨stands, offset, rfl, remembers⟩ := h
  cases remembers with
  | @some a f here =>
      obtain ⟨place, token, actions⟩ := here
      obtain ⟨position, lineColumn⟩ := Prod.mk.inj place
      refine ⟨_, _, rfl, rfl, stands.chars, ?_, ?_⟩
      · change Except.ok _ = _
        rw [token, actions]
        rfl
      · have le := Scanner.position_iterate_consume_le inside f.length
        have size : s.input.size = s₀.input.size := congrArg Array.size stands.chars
        change (min a.position s.input.size, a.line, a.column) = _
        rw [size, Nat.min_eq_left (position ▸ le), place]
  | none =>
      have reading : s.input.remaining.headD Symbol.eof = Symbol.eof ↔ s.input.remaining = [] := by
        cases ahead : s.input.remaining with
        | nil => simp
        | cons x rest =>
            have h : UnderWay n s₀ (x :: rest) k none none s := ⟨stands, offset, ahead, .none⟩
            simpa using h.ne_eof
      have here : s.input.position = s.start ↔ k = 0 := by omega
      have answer : (Scan.conclude source (s.input.remaining.headD Symbol.eof) none).run s =
          (if k = 0 ∧ s.input.remaining = [] then .ok { type := Symbol.eof }
            else .error (.recoverable { kind := .noToken s.start (some source.configs) }), s) := by
        unfold Scan.conclude
        rw [Step.run_bind_ok (Step.run_get s)]
        simp only [reading, here, and_comm]
        split <;> rfl
      refine ⟨_, _, answer, rfl, stands.chars, stands.place, ?_⟩
      split
      · rfl
      · exact ⟨_, rfl⟩

end UnderWay

/-- The match ends as the threads do that read on, or because they cannot. -/
structure Settles (n : Network) (mode fuel symbols : Nat) (s₀ : Scanner τ) (cs : List Symbol) (k : Nat)
    (ts : List Thread) (win : Option Finish) (result : Except Failure Match × Scanner τ) : Prop where
  sound : result.2.tables.SoundAt n mode
  chars : result.2.input.chars = s₀.input.chars
  ends : (∃ stop win', Thread.Scans n cs k ts win stop win' ∧ Ends n s₀ cs stop win' result) ∨
    (∃ fault, result.1 = .error (.fault fault)) ∧ Thread.Stuck n fuel symbols cs k ts

namespace Settles

variable {symbols fuel : Nat} {ts' : List Thread} {win : Option Finish} {c : Symbol}
  {result : Except Failure Match × Scanner τ}

/-- Threads that have read a character go on. -/
theorem read (next : Thread.LeadTo n ts c ts') (alive : ts' ≠ [])
    (h : Settles n mode fuel symbols s₀ cs (k + 1) ts' ((Thread.finish? n (k + 1) ts').or win) result) :
    Settles n mode fuel (symbols + 1) s₀ (c :: cs) k ts win result where
  sound := h.sound
  chars := h.chars
  ends := by
    rcases h.ends with ⟨stop, win', scans, ends⟩ | ⟨fault, stuck⟩
    · have read : 0 < stop := Nat.lt_of_lt_of_le k.succ_pos scans.le_stop
      exact .inl ⟨stop, win', .read next alive scans, ends.of_pos read _⟩
    · exact .inr ⟨fault, .read next stuck⟩

/-- Threads that have read the end of the input go on if none has finished. -/
theorem goOnAtEnd (next : Thread.LeadTo n ts Symbol.eof ts') (alive : ts' ≠ [])
    (unfinished : Thread.finish? n k ts' = none)
    (h : Settles n mode fuel symbols s₀ [] k ts' win result) :
    Settles n mode fuel (symbols + 1) s₀ [] k ts win result where
  sound := h.sound
  chars := h.chars
  ends := by
    rcases h.ends with ⟨stop, win', scans, ends⟩ | ⟨fault, stuck⟩
    · exact .inl ⟨stop, win', .goOnAtEnd next alive unfinished scans, ends⟩
    · exact .inr ⟨fault, .goOnAtEnd next alive stuck⟩

end Settles

/-- Reading on from a state of the table. -/
theorem readOn_settles {area : Set Nat} (scannable : n.IsScannableIn area)
    (hu : u.grammar.network = n) (inside : s₀.input.position ≤ s₀.input.size) (symbols : Nat)
    {source : TableState} {last : Option Acceptance} {win : Option Finish}
    (sound : s.tables.SoundAt n mode) (known : ∀ t ∈ ts, t.IsIn area)
    (has : s.tables.Has n mode source ts) (underWay : UnderWay n s₀ cs k win last s) :
    Settles n mode u.fuel symbols s₀ cs k ts win ((readOn u mode symbols source last).run s) := by
  induction symbols generalizing s source last win cs ts k with
  | zero => exact ⟨sound, underWay.stands.chars, .inr ⟨⟨_, rfl⟩, .tooLong⟩⟩
  | succ symbols ih =>
      have look : s.input.lookahead 1 = cs.headD Symbol.eof := by
        rw [CharStream.lookahead_one, underWay.ahead]
      rw [readOn, Step.run_bind_ok (Step.run_get s)]
      rcases target_spec scannable hu sound known has (s.input.lookahead 1) with
        ⟨next, s₁, ts', run, learns, become, leads⟩ | ⟨fault, s₁, run, learns, lacking⟩
      · have underWay₁ := underWay.learns learns
        have known₁ := become.isIn scannable known
        rw [Step.run_bind_ok run]
        rw [look] at become ⊢
        cases next with
        | dead =>
            obtain rfl : ts' = [] := leads
            obtain ⟨outcome, s', run', tables, chars, ends⟩ := underWay₁.conclude inside source
            exact run' ▸ ⟨tables ▸ learns.sound, chars, .inl ⟨k, win, .ended become, ends⟩⟩
        | state state =>
            obtain ⟨alive, has₁⟩ := leads
            cases cs with
            | nil =>
                have accepts := isAccept_eq has₁ k
                simp only [List.headD_nil, if_true]
                cases finished : Thread.finish? n k ts' with
                | some f =>
                    obtain ⟨last', remember, remembered⟩ := underWay₁.remember has₁
                    rw [finished] at remembered
                    obtain ⟨outcome, s', run', tables, chars, ends⟩ := remembered.conclude inside source
                    rw [if_pos (by rw [accepts, finished]; rfl), Step.run_bind_ok remember]
                    have finishes : Thread.Scans n [] k ts win k (some f) :=
                      .finishAtEnd become alive finished
                    exact run' ▸ ⟨tables ▸ learns.sound, chars, .inl ⟨k, some f, finishes, ends⟩⟩
                | none =>
                    rw [if_neg (by rw [accepts, finished]; exact Bool.false_ne_true)]
                    exact .goOnAtEnd become alive finished (ih learns.sound known₁ has₁ underWay₁)
            | cons c cs =>
                simp only [List.headD_cons, underWay.ne_eof, if_false]
                rw [← Scanner.tables_consume s₁] at has₁
                obtain ⟨last', remember, remembered⟩ := underWay₁.consume.remember has₁
                rw [Step.run_bind_ok (Step.run_modify _ s₁), Step.run_bind_ok remember]
                have sound₁ := Scanner.tables_consume s₁ ▸ learns.sound
                exact .read become alive (ih sound₁ known₁ has₁ remembered)
      · have reached : s.input.position - s.start = k := by
          have offset := underWay.offset
          omega
        rw [reached, look] at lacking
        rw [Step.run_bind_error run]
        exact ⟨learns.sound, (underWay.learns learns).stands.chars, .inr ⟨⟨fault, rfl⟩, .tooDeep lacking⟩⟩

/-- The scanner at the start of a match. -/
def begun (s : Scanner τ) : Scanner τ :=
  { s with start := s.input.position, input := s.input.mark, tables := s.tables.forgetMerges }

theorem run_matchToken (u : LexerSetup τ) (mode : Nat) (s : Scanner τ) :
    (matchToken u mode).run s =
      let result := (if mode < s.tables.tables.size then do
          let start ← startState u mode
          readOn u mode u.fuel start (← acceptance start none)
        else
          throw (.recoverable {
            kind := .noToken s.input.position none
            text? := some ("no such lexer mode: " ++ toString mode) }) : Scan τ Match).run (begun s)
      (result.1, { result.2 with input := result.2.input.release }) := by
  unfold matchToken
  rw [Step.run_bind_ok (Step.run_modify _ s), Step.run_bind_ok (Step.run_get _),
    Step.run_bind_ok (Step.run_attempt _ _), Step.run_bind_ok (Step.run_modify _ _),
    Step.run_ofOutcome]
  rfl

/-- A match in a mode whose threads can be followed ends as the threads do that it begins with. -/
theorem matchToken_endsIn {area : Set Nat} {start : Nat} (scannable : n.IsScannableFrom start area)
    (hu : u.grammar.network = n) (sound : s.tables.SoundAt n mode)
    (inside : s.input.position ≤ s.input.size) (hstart : n.modes[mode]? = some start) :
    ∃ outcome s', (matchToken u mode).run s = (outcome, s') ∧ s'.tables.SoundAt n mode ∧
      s'.input.chars = s.input.chars ∧
      ((∃ ts stop win, Thread.Begins n start ts ∧
          Thread.Scans n s.input.remaining 0 ts (Thread.finish? n 0 ts) stop win ∧
          Ends n s s.input.remaining stop win (outcome, s')) ∨
        (∃ fault, outcome = .error (.fault fault)) ∧
          (Thread.starts n u.fuel start = none ∨
            ∃ ts, Thread.Begins n start ts ∧
              Thread.Stuck n u.fuel u.fuel s.input.remaining 0 ts)) := by
  have valid : mode < s.tables.tables.size :=
    sound.size ▸ (Array.getElem?_eq_some_iff.1 hstart).1
  have sound₀ : (begun s).tables.SoundAt n mode := ⟨sound.distinct, sound.size, sound.table⟩
  rw [run_matchToken, if_pos valid]
  rcases startState_spec scannable hu sound₀ hstart with
    ⟨state, s₁, ts, run, learns, begins, has⟩ | ⟨fault, s₁, run, learns, lacking⟩
  · obtain ⟨input, start₁, stands⟩ :
        s₁.input = s.input.mark ∧ s₁.start = s.input.position ∧ s.Stands 0 s₁ := by
      rw [learns.same]
      exact ⟨rfl, rfl, rfl, rfl⟩
    have offset : s₁.input.position = s₁.start + 0 := by rw [input, start₁]; rfl
    have ahead : s₁.input.remaining = s.input.remaining := by rw [input]; rfl
    have underWay : UnderWay n s s.input.remaining 0 none none s₁ := ⟨stands, offset, ahead, .none⟩
    obtain ⟨last, remember, remembered⟩ := underWay.remember has
    rw [Option.or_none] at remembered
    obtain ⟨sound', chars, ends⟩ := readOn_settles scannable.toIsScannableIn hu inside u.fuel
      learns.sound (begins.isIn scannable) has remembered
    rw [Step.run_bind_ok run, Step.run_bind_ok remember]
    refine ⟨_, _, rfl, sound', chars, ?_⟩
    rcases ends with ⟨stop, win, scans, ends⟩ | ⟨fault, stuck⟩
    · exact .inl ⟨ts, stop, win, begins, scans, by cases win <;> exact ends⟩
    · exact .inr ⟨fault, .inr ⟨ts, begins, stuck⟩⟩
  · rw [Step.run_bind_error run]
    have chars : s₁.input.chars = s.input.chars := by
      rw [learns.same]
      rfl
    exact ⟨_, _, rfl, learns.sound, chars, .inr ⟨⟨fault, rfl⟩, .inl lacking⟩⟩

/-- A match ends as the threads do that it begins with. -/
theorem matchToken_ends (scannable : n.IsScannable) (hu : u.grammar.network = n)
    (sound : s.tables.Sound n) (inside : s.input.position ≤ s.input.size) {start : Nat}
    (hstart : n.modes[mode]? = some start) :
    ∃ outcome s', (matchToken u mode).run s = (outcome, s') ∧ s'.tables.SoundAt n mode ∧
      s'.input.chars = s.input.chars ∧
      ((∃ ts stop win, Thread.Begins n start ts ∧
          Thread.Scans n s.input.remaining 0 ts (Thread.finish? n 0 ts) stop win ∧
          Ends n s s.input.remaining stop win (outcome, s')) ∨
        (∃ fault, outcome = .error (.fault fault)) ∧
          (Thread.starts n u.fuel start = none ∨
            ∃ ts, Thread.Begins n start ts ∧
              Thread.Stuck n u.fuel u.fuel s.input.remaining 0 ts)) :=
  matchToken_endsIn (scannable.everywhere start) hu (sound.soundAt mode) inside hstart

/-- What is known about a mode whose threads can be followed stays true in any match, also in one
of another mode. -/
theorem matchToken_soundAt {area : Set Nat} {start : Nat} (scannable : n.IsScannableFrom start area)
    (hu : u.grammar.network = n) (sound : s.tables.SoundAt n mode)
    (inside : s.input.position ≤ s.input.size) (hstart : n.modes[mode]? = some start) (k : Nat) :
    ((matchToken u k).run s).2.tables.SoundAt n mode := by
  by_cases same : k = mode
  · subst same
    obtain ⟨outcome, s', run, sound', -⟩ := matchToken_endsIn scannable hu sound inside hstart
    rw [run]
    exact sound'
  · exact sound.changesAt (matchToken_changesAt u k s) (Ne.symm same)

/-- A match keeps the tables sound, also in a mode that does not exist. -/
theorem matchToken_sound (scannable : n.IsScannable) (hu : u.grammar.network = n) (sound : s.tables.Sound n)
    (inside : s.input.position ≤ s.input.size) (mode : Nat) :
    ((matchToken u mode).run s).2.tables.Sound n := by
  have changes := matchToken_changesAt u mode s
  refine ⟨changes.grown.distinct sound.distinct, changes.size.trans sound.size, ?_⟩
  intro k table found
  obtain ⟨start, hstart⟩ : ∃ start, n.modes[k]? = some start := by
    have lt := (Array.getElem?_eq_some_iff.1 found).1
    exact ⟨_, Array.getElem?_eq_getElem (changes.size.trans sound.size ▸ lt)⟩
  exact (matchToken_soundAt (scannable.everywhere start) hu (sound.soundAt k) inside hstart mode).table found

end Scan

namespace Tables

/-- Tables that matches of lexers for the network have left, from empty ones on. They may have
been cleared between two matches. -/
inductive Cached (n : Network) : Tables → Prop where
  | fresh : Cached n (ofNetwork n)
  | matched {τ : Type} (u : LexerSetup τ) (hu : u.grammar.network = n) (mode : Nat)
      (s : Scanner τ) (inside : s.input.position ≤ s.input.size) (before : Cached n s.tables) :
      Cached n ((Scan.matchToken u mode).run s).2.tables
  | cleared {t : Tables} (before : Cached n t) : Cached n t.clear

variable {n : Network} {t : Tables}

theorem SoundAt.clear {mode : Nat} (h : t.SoundAt n mode) : t.clear.SoundAt n mode where
  distinct := h.distinct
  size := by simpa [Tables.clear] using h.size
  table found := by
    simp only [Tables.clear, Array.getElem?_map, Option.map_eq_some_iff] at found
    obtain ⟨old, hold, rfl⟩ := found
    obtain ⟨start, hstart, sound⟩ := h.table hold
    exact ⟨start, hstart, .of_empty sound.startState rfl rfl rfl⟩

theorem Sound.clear (h : t.Sound n) : t.clear.Sound n where
  distinct := h.distinct
  size := by simpa [Tables.clear] using h.size
  tables found := (h.soundAt _).clear.table found

/-- No history of matches leaves anything wrong in the tables. -/
theorem Cached.sound (scannable : n.IsScannable) (lexer : n.kind = .lexer) (h : Cached n t) : t.Sound n := by
  induction h with
  | fresh => exact sound_ofNetwork lexer
  | matched u hu mode s inside _ ih =>
      exact Scan.matchToken_sound scannable hu ih inside mode
  | cleared _ ih => exact ih.clear

/-- Whatever the other modes are like, no history of matches leaves anything wrong about a mode
whose threads can be followed. -/
theorem Cached.soundAt {mode start : Nat} {area : Set Nat} (scannable : n.IsScannableFrom start area)
    (hstart : n.modes[mode]? = some start) (lexer : n.kind = .lexer) (h : Cached n t) :
    t.SoundAt n mode := by
  induction h with
  | fresh => exact (sound_ofNetwork lexer).soundAt mode
  | matched u hu k s inside _ ih => exact Scan.matchToken_soundAt scannable hu ih inside hstart k
  | cleared _ ih => exact ih.clear

end Tables

end AdaptiveLL
