import AdaptiveLL.Proofs.Lexer.Match
import AdaptiveLL.Proofs.Network.Settling
/-!
When earlier matches leave no trace. An edge of a prediction table is computed at one distance
from the start of a match and taken at every distance. If no character follows a command that has
to run where it stands, nothing depends on the distance, and a match gives the same whatever the
tables hold (`matchToken_transparent`).
-/
namespace AdaptiveLL

open Relation (ReflTransGen)

namespace Option

/-- A fold keeps its result if the results of its steps are kept. -/
theorem foldlM_mono {α β : Type} {f g : β → α → Option β} {xs : List α} {b r : β}
    (h : xs.foldlM f b = some r)
    (step : ∀ x ∈ xs, ∀ b b', f b x = some b' → g b x = some b') : xs.foldlM g b = some r := by
  induction xs generalizing b with
  | nil => exact h
  | cons x xs ih =>
      rw [List.foldlM_cons] at h ⊢
      obtain ⟨b', first, rest⟩ := Option.bind_eq_some_iff.1 h
      refine Option.bind_eq_some_iff.2 ⟨b', step x (.head _) b b' first, ?_⟩
      exact ih rest fun y mem => step y (.tail _ mem)

end Option

/-- A list without loose commands stays as it is. -/
theorem ActionList.pin_of_isFixed {actions : ActionList} (fixed : actions.isFixed = true)
    (offset : Nat) : actions.pin offset = actions := by
  refine (List.map_congr_left fun a mem => ?_).trans (List.map_id actions)
  have settled : a.isLoose = false := by simp_all [isFixed]
  simp [LexerAction.pin, settled]

namespace Network

/-- Nothing is read any more from the place on, not even after silent moves. -/
def IsOver (n : Network) (p : Place) : Prop :=
  ∀ p' x p'', ReflTransGen n.Silent p p' → ¬ n.Reads 0 Symbol.lastChar x p' p''

/-- No character of its rule follows a command that has to run where it stands. -/
def CommandsTrail (n : Network) : Prop :=
  ∀ (q : Nat) (s : State) (target rule index : Nat) (contextual : Bool) (action : LexerAction),
    n.states[q]? = some s → .action target rule (some index) contextual ∈ s.transitions →
      n.actions[index]? = some action → action.isLoose = true → n.IsOver (target, [])

variable {n : Network} {p p' : Place}

/-- A search for an edge that reads, over at most `fuel` silent moves in a row. -/
def isOverWithin (n : Network) : Nat → Place → Bool
  | 0, _ => false
  | fuel + 1, p =>
      ((n.states[p.1]?.map State.transitions).getD []).all Transition.isEpsilon &&
        (n.silentSteps p).all (n.isOverWithin fuel)

theorem isOver_of_within {fuel : Nat} (found : n.isOverWithin fuel p = true) : n.IsOver p := by
  intro p' x p'' path read
  induction path using ReflTransGen.head_induction_on generalizing fuel with
  | refl =>
      cases fuel with
      | zero => cases found
      | succ fuel =>
          cases read with
          | edge here _ mem reads =>
              simp only [isOverWithin, here, Option.map_some, Option.getD_some, Bool.and_eq_true,
                List.all_eq_true] at found
              have silent := found.1 _ mem
              cases ‹Transition› <;> simp_all [Transition.isEpsilon, Transition.reads]
  | head move _ ih =>
      cases fuel with
      | zero => cases found
      | succ fuel =>
          simp only [isOverWithin, Bool.and_eq_true, List.all_eq_true] at found
          exact ih (found.2 _ move.mem_silentSteps)

/-- A check of all commands, each over at most `fuel` silent moves in a row. -/
def commandsTrailWithin (n : Network) (fuel : Nat) : Bool :=
  n.states.all fun s => s.transitions.all fun e =>
    match e with
    | .action target _ index _ => (index.bind (n.actions[·]?)).all fun action =>
        !action.isLoose || n.isOverWithin fuel (target, [])
    | _ => true

theorem commandsTrail_of_within {fuel : Nat} (found : n.commandsTrailWithin fuel = true) :
    n.CommandsTrail := by
  intro q s target rule index contextual action here mem known loose
  simp only [commandsTrailWithin, Array.all_eq_true_iff_forall_mem, List.all_eq_true] at found
  have checked := found s (Array.mem_of_getElem? here) _ mem
  simp only [Option.bind_some, known, Option.all_some, loose, Bool.not_true, Bool.false_or] at checked
  exact isOver_of_within checked

theorem IsOver.tail (h : n.IsOver p) (move : n.Silent p p') : n.IsOver p' :=
  fun _ x p'' path => h _ x p'' (.head move path)

end Network

namespace Thread

variable {n : Network} {t t' : Thread} {ts ts' ts'' : List Thread} {fuel fuel' offset offset' : Nat}
  {crossEof accepted : Bool} {x : Symbol}

section Fuel

/-- What a closure finds does not depend on how deep it may be. -/
theorem settle_mono {r : Bool × List Thread} (h : t.settle n crossEof fuel accepted = some r)
    (le : fuel ≤ fuel') : t.settle n crossEof fuel' accepted = some r := by
  induction fuel generalizing fuel' t accepted r with
  | zero => cases h
  | succ fuel ih =>
      obtain ⟨fuel', rfl⟩ : ∃ k, fuel' = k + 1 := ⟨fuel' - 1, by omega⟩
      have le : fuel ≤ fuel' := Nat.le_of_succ_le_succ le
      rw [settle] at h ⊢
      obtain ⟨s, here, h⟩ := Option.bind_eq_some_iff.1 h
      rw [here, Option.bind_eq_bind, Option.bind_some]
      cases stop : s.isRuleStop with
      | true =>
          rw [if_pos stop] at h
          rw [if_pos rfl]
          cases called : t.frames with
          | nil =>
              rw [called] at h
              exact h
          | cons resume frames =>
              rw [called] at h
              exact ih h le
      | false =>
          rw [if_neg (by simp [stop])] at h
          rw [if_neg Bool.false_ne_true]
          refine Option.foldlM_mono h ?_
          rintro e - ⟨accepted, found⟩ b' step
          cases crossed : t.cross n crossEof e with
          | none =>
              rw [crossed] at step
              exact step
          | some t' =>
              rw [crossed] at step
              obtain ⟨⟨a, new⟩, settled, step⟩ := Option.bind_eq_some_iff.1 step
              exact Option.bind_eq_some_iff.2 ⟨_, ih settled le, step⟩

theorem starts_mono {start : Nat} (h : starts n fuel start = some ts) (le : fuel ≤ fuel') :
    starts n fuel' start = some ts := by
  rw [starts] at h ⊢
  obtain ⟨s, here, h⟩ := Option.bind_eq_some_iff.1 h
  refine Option.bind_eq_some_iff.2 ⟨s, here, Option.foldlM_mono h ?_⟩
  rintro ⟨e, i⟩ - b b' step
  obtain ⟨r, settled, step⟩ := Option.bind_eq_some_iff.1 step
  exact Option.bind_eq_some_iff.2 ⟨r, settle_mono settled le, step⟩

theorem Begins.unique {start : Nat} (h : Begins n start ts) (h' : Begins n start ts') :
    ts = ts' := by
  obtain ⟨fuel, h⟩ := h
  obtain ⟨fuel', h'⟩ := h'
  exact Option.some.inj ((starts_mono h (Nat.le_max_left _ _)).symm.trans
    (starts_mono h' (Nat.le_max_right _ _)))

end Fuel

section Quiet

/-- The thread carries no command that has to be pinned. -/
def IsFixed (t : Thread) : Prop :=
  ∀ actions ∈ t.actions, ActionList.isFixed actions = true

/-- A thread that carries a command that has to be pinned will not read any more. -/
def IsQuiet (n : Network) (t : Thread) : Prop :=
  t.IsFixed ∨ n.IsOver t.place

variable {s : State} {e : Transition}

theorem IsQuiet.back {resume : Nat} {frames : List Nat} (here : n.states[t.state]? = some s)
    (stop : s.isRuleStop = true) (called : t.frames = resume :: frames) (quiet : t.IsQuiet n) :
    (t.back n resume frames).IsQuiet n := by
  refine quiet.imp id fun ended => ended.tail ?_
  rw [place, called]
  exact .back here stop

theorem IsQuiet.cross (trail : n.CommandsTrail) (here : n.states[t.state]? = some s)
    (inside : s.isRuleStop = false) (mem : e ∈ s.transitions)
    (crossed : t.cross n crossEof e = some t') (quiet : t.IsQuiet n) : t'.IsQuiet n := by
  have silent {p : Place} (cross : e.silently? t.frames = some p) (ended : n.IsOver t.place) :
      n.IsOver p := ended.tail (.edge here inside mem cross)
  have reads (reads : e.reads Symbol.eof 0 Symbol.lastChar = true) : t.IsFixed :=
    quiet.resolve_right fun ended => ended t.place _ _ .refl
      (.edge here (fun stop => nomatch inside.symm.trans stop) mem reads)
  cases e with
  | call target rule precedence follow =>
      obtain rfl := Option.some.inj crossed
      exact quiet.imp id (silent rfl)
  | epsilon target outermost =>
      obtain rfl := Option.some.inj crossed
      exact quiet.imp id (silent rfl)
  | action target rule index contextual =>
      simp only [Thread.cross] at crossed
      split at crossed
      case h_1 action bottom known =>
          obtain rfl := Option.some.inj crossed
          cases loose : action.isLoose with
          | true =>
              obtain ⟨number, rfl, found⟩ := Option.bind_eq_some_iff.1 known
              refine .inr ?_
              change n.IsOver (target, t.frames)
              rw [List.isEmpty_iff.1 bottom]
              exact trail t.state s target rule number contextual action here mem found loose
          | false =>
              refine quiet.imp (fun fixed actions pushed => ?_) (silent rfl)
              obtain rfl := Option.some.inj pushed
              have before : ActionList.isFixed (t.actions.getD []) = true := by
                cases carried : t.actions with
                | none => rfl
                | some actions => exact fixed actions carried
              simp_all [ActionList.push, ActionList.isFixed]
      case h_2 =>
          obtain rfl := Option.some.inj crossed
          exact quiet.imp id (silent rfl)
  | atom | range | set =>
      simp only [Thread.cross] at crossed
      split at crossed
      case isTrue atEof =>
          obtain rfl := Option.some.inj crossed
          exact .inl (reads (Bool.and_eq_true_iff.1 atEof).2)
      case isFalse => cases crossed
  | notSet | wildcard | precedence | predicate => cases crossed

theorem settle_quiet (trail : n.CommandsTrail) {new : List Thread} {b : Bool}
    (quiet : t.IsQuiet n) (h : t.settle n crossEof fuel accepted = some (b, new)) :
    ∀ t' ∈ new, t'.IsQuiet n ∧ n.Keeps t'.place :=
  settle_all (fun _ _ _ _ here stop called quiet => quiet.back here stop called)
    (fun _ _ _ _ here inside mem crossed quiet => quiet.cross trail here inside mem crossed) quiet h

/-- A thread that reads carries nothing that has to be pinned. -/
theorem IsQuiet.isFixed (quiet : t.IsQuiet n) (keeps : n.Keeps t.place)
    (here : n.states[t.state]? = some s) (mem : e ∈ s.transitions)
    (reads : e.reads x 0 Symbol.lastChar = true) : t.IsFixed := by
  refine quiet.resolve_right fun ended => ended t.place _ _ .refl (.edge here (fun stop => ?_) mem reads)
  obtain ⟨s', here', kept⟩ := keeps
  obtain rfl := Option.some.inj (here.symm.trans here')
  have bottom : t.place.2 = [] := by simpa [stop] using kept
  exact bottom

theorem read_eq (fixed : t.IsFixed) (offset : Nat) (e : Transition) :
    t.read n offset e = t.move n e.target := by
  have same : t.actions.map (·.pin offset) = t.actions := by
    cases carried : t.actions with
    | none => rfl
    | some actions => exact congrArg some (ActionList.pin_of_isFixed (fixed actions carried) offset)
  rw [read, same]
  rfl

theorem IsQuiet.read (fixed : t.IsFixed) (offset : Nat) (e : Transition) :
    (t.read n offset e).IsQuiet n := by
  rw [read_eq fixed]
  exact .inl fixed

end Quiet

section Reading

/-- All threads are quiet, and can read or have finished. -/
def AllQuiet (n : Network) (ts : List Thread) : Prop :=
  ∀ t ∈ ts, t.IsQuiet n ∧ n.Keeps t.place

theorem allQuiet_nil : AllQuiet n [] :=
  fun _ mem => nomatch mem

/-- What a thread becomes by reading does not depend on the distance. -/
theorem advance_transfer {es : List Transition} {r : Bool × List Thread}
    (fixed : ∀ e ∈ es, e.reads x 0 Symbol.lastChar = true → t.IsFixed)
    (h : t.advance n fuel offset x accepted es = some r) (le : fuel ≤ fuel') (offset' : Nat) :
    t.advance n fuel' offset' x accepted es = some r := by
  induction es generalizing r with
  | nil => exact h
  | cons e es ih =>
      have rest : ∀ e' ∈ es, e'.reads x 0 Symbol.lastChar = true → t.IsFixed := fun e' mem =>
        fixed e' (.tail _ mem)
      rw [advance] at h ⊢
      cases reads : e.reads x 0 Symbol.lastChar with
      | false =>
          rw [reads, if_neg Bool.false_ne_true] at h
          rw [if_neg Bool.false_ne_true]
          exact ih rest h
      | true =>
          have fixed := fixed e (.head _) reads
          rw [reads, if_pos rfl, read_eq fixed] at h
          rw [if_pos rfl, read_eq fixed]
          obtain ⟨⟨finished, new⟩, settled, h⟩ := Option.bind_eq_some_iff.1 h
          refine Option.bind_eq_some_iff.2 ⟨_, settle_mono settled le, ?_⟩
          cases finished with
          | true => exact h
          | false =>
              obtain ⟨r', others, h⟩ := Option.bind_eq_some_iff.1 h
              exact Option.bind_eq_some_iff.2 ⟨r', ih rest others, h⟩

theorem reach_transfer (quiet : AllQuiet n ts) (h : reach n fuel offset ts x = some ts')
    (le : fuel ≤ fuel') (offset' : Nat) : reach n fuel' offset' ts x = some ts' := by
  rw [reach] at h ⊢
  obtain ⟨r, folded, h⟩ := Option.bind_eq_some_iff.1 h
  refine Option.bind_eq_some_iff.2 ⟨r, Option.foldlM_mono folded ?_, h⟩
  rintro t mem ⟨finishedAlt, reached⟩ b' step
  obtain ⟨quiet, keeps⟩ := quiet t mem
  dsimp only at step ⊢
  split
  case isTrue passed =>
      rw [if_pos passed] at step
      exact step
  case isFalse going =>
      rw [if_neg going] at step
      obtain ⟨s, here, step⟩ := Option.bind_eq_some_iff.1 step
      obtain ⟨r', advanced, step⟩ := Option.bind_eq_some_iff.1 step
      refine Option.bind_eq_some_iff.2 ⟨s, here, Option.bind_eq_some_iff.2 ⟨r', ?_, step⟩⟩
      exact advance_transfer (fun e memE reads => quiet.isFixed keeps here memE reads) advanced le _

/-- Reading a symbol leads to one list of threads. -/
theorem LeadTo.unique (quiet : AllQuiet n ts) (h : LeadTo n ts x ts') (h' : LeadTo n ts x ts'') :
    ts' = ts'' := by
  obtain ⟨fuel, offset, h⟩ := h
  obtain ⟨fuel', offset', h'⟩ := h'
  exact Option.some.inj ((reach_transfer quiet h (Nat.le_max_left fuel fuel') 0).symm.trans
    (reach_transfer quiet h' (Nat.le_max_right fuel fuel') 0))

theorem LeadTo.quiet (trail : n.CommandsTrail) (quiet : AllQuiet n ts) (h : LeadTo n ts x ts') :
    AllQuiet n ts' := by
  obtain ⟨fuel, offset, h⟩ := h
  refine reach_all (fun t mem s e here memE reads accepted b new settled => ?_) h
  obtain ⟨quiet, keeps⟩ := quiet t mem
  exact settle_quiet trail (.read (quiet.isFixed keeps here memE reads) offset e) settled

theorem Begins.quiet (trail : n.CommandsTrail) {start : Nat} (h : Begins n start ts) :
    AllQuiet n ts := by
  obtain ⟨fuel, h⟩ := h
  refine starts_all (fun e i b new settled => settle_quiet trail (.inl ?_) settled) h
  exact fun actions none => nomatch none

/-- Threads read a text in one way. -/
theorem Scans.unique (trail : n.CommandsTrail) (quiet : AllQuiet n ts) {cs : List Symbol}
    {k stop stop' : Nat} {last win win' : Option Finish} (h : Scans n cs k ts last stop win)
    (h' : Scans n cs k ts last stop' win') : stop = stop' ∧ win = win' := by
  induction h generalizing stop' win' with
  | ended dead =>
      cases h' with
      | ended => exact ⟨rfl, rfl⟩
      | read next alive => exact absurd (next.unique quiet dead) alive
      | finishAtEnd next alive => exact absurd (next.unique quiet dead) alive
      | goOnAtEnd next alive => exact absurd (next.unique quiet dead) alive
  | read next alive rest ih =>
      cases h' with
      | ended dead => exact absurd (next.unique quiet dead) alive
      | read next' _ rest' =>
          obtain rfl := next.unique quiet next'
          exact ih (next.quiet trail quiet) rest'
  | finishAtEnd next alive finished =>
      cases h' with
      | ended dead => exact absurd (next.unique quiet dead) alive
      | finishAtEnd next' _ finished' =>
          obtain rfl := next.unique quiet next'
          exact ⟨rfl, finished.symm.trans finished'⟩
      | goOnAtEnd next' _ unfinished =>
          obtain rfl := next.unique quiet next'
          cases finished.symm.trans unfinished
  | goOnAtEnd next alive unfinished rest ih =>
      cases h' with
      | ended dead => exact absurd (next.unique quiet dead) alive
      | finishAtEnd next' _ finished =>
          obtain rfl := next.unique quiet next'
          cases finished.symm.trans unfinished
      | goOnAtEnd next' _ _ rest' =>
          obtain rfl := next.unique quiet next'
          exact ih (next.quiet trail quiet) rest'

end Reading

end Thread

namespace Scanner

variable {τ : Type} {s s' : Scanner τ}

theorem place_iterate_congr (chars : s'.input.chars = s.input.chars) (place : s'.place = s.place)
    (k : Nat) : (consume^[k] s').place = (consume^[k] s).place := by
  induction k with
  | zero => exact place
  | succ k ih =>
      rw [Function.iterate_succ_apply', Function.iterate_succ_apply']
      refine consume_place_congr ?_ ih
      rw [chars_iterate_consume, chars_iterate_consume, chars]

end Scanner

namespace Scan

variable {τ : Type} {n : Network} {s s' : Scanner τ} {cs : List Symbol} {stop : Nat}
  {win : Option Finish} {result result' : Except Failure Match × Scanner τ}

/-- The same run of threads gives the same match, at the same place. -/
theorem Ends.congr (chars : s'.input.chars = s.input.chars) (place : s'.place = s.place)
    (h : Ends n s cs stop win result) (h' : Ends n s' cs stop win result') :
    result'.1.toOption = result.1.toOption ∧ result'.2.place = result.2.place := by
  have consumed (k : Nat) := Scanner.place_iterate_congr chars place k
  cases win with
  | some f =>
      obtain ⟨ok, stands⟩ := h
      obtain ⟨ok', stands'⟩ := h'
      exact ⟨by rw [ok, ok'], by rw [stands, stands', consumed]⟩
  | none =>
      obtain ⟨stands, answer⟩ := h
      obtain ⟨stands', answer'⟩ := h'
      refine ⟨?_, by rw [stands, stands', consumed]⟩
      split at answer
      case isTrue atEnd =>
          rw [if_pos atEnd] at answer'
          rw [answer, answer']
      case isFalse going =>
          rw [if_neg going] at answer'
          obtain ⟨error, failed⟩ := answer
          obtain ⟨error', failed'⟩ := answer'
          rw [failed, failed']
          rfl

end Scan

open Scan in
/-- In a lexer without predicates, none of whose commands that have to run where they stand is
followed by a character, a match gives the same type and the same commands and leaves the input
at the same place whatever earlier matches have left in the tables. -/
theorem matchToken_transparent {plan : Blueprint} {n : Network}
    (built : Network.assemble .lexer plan = .ok n) (small : n.states.size ≤ noState)
    (unguarded : n.IsUnguarded) (trail : n.CommandsTrail) {τ : Type} (u : LexerSetup τ)
    (hu : u.grammar.network = n) (mode : Nat) {s s' : Scanner τ}
    (inside : s.input.position ≤ s.input.size) (chars : s'.input.chars = s.input.chars)
    (place : s'.place = s.place) (cached : Tables.Cached n s.tables)
    (cached' : Tables.Cached n s'.tables)
    (done : ∀ fault, ((matchToken u mode).run s).1 ≠ .error (.fault fault))
    (done' : ∀ fault, ((matchToken u mode).run s').1 ≠ .error (.fault fault)) :
    ((matchToken u mode).run s').1.toOption = ((matchToken u mode).run s).1.toOption ∧
      ((matchToken u mode).run s').2.place = ((matchToken u mode).run s).2.place := by
  have wf := Network.wellFormed_of_assemble built
  have scannable : n.IsScannable := ⟨wf, small, unguarded⟩
  have lexer := Network.kind_of_assemble built
  have sound := cached.sound scannable lexer
  have sound' := cached'.sound scannable lexer
  have position : s'.input.position = s.input.position := (Prod.mk.inj place).1
  have inside' : s'.input.position ≤ s'.input.size := by
    rw [position, CharStream.size, chars]
    exact inside
  cases hstart : n.modes[mode]? with
  | none =>
      have missing : ¬ mode < n.modes.size := Nat.not_lt.2 (Array.getElem?_eq_none_iff.1 hstart)
      rw [run_matchToken, run_matchToken, if_neg (sound'.size ▸ missing),
        if_neg (sound.size ▸ missing)]
      exact ⟨rfl, place⟩
  | some start =>
      obtain ⟨outcome, t, run, -, -, ends⟩ := matchToken_ends scannable hu sound inside hstart
      obtain ⟨outcome', t', run', -, -, ends'⟩ := matchToken_ends scannable hu sound' inside' hstart
      rw [run] at done ⊢
      rw [run'] at done' ⊢
      rcases ends with ⟨ts, stop, win, begins, scans, ends⟩ | ⟨⟨fault, failed⟩, -⟩
      · rcases ends' with ⟨ts', stop', win', begins', scans', ends'⟩ | ⟨⟨fault, failed⟩, -⟩
        · rw [Scanner.remaining_of_chars chars place] at scans' ends'
          obtain rfl := begins.unique begins'
          obtain ⟨rfl, rfl⟩ := scans.unique trail (begins.quiet trail) scans'
          exact ends.congr chars place ends'
        · exact absurd failed (done' fault)
      · exact absurd failed (done fault)

/-- A rule that reads any number of `a`, and then has two edges of its own. -/
def stars (first second : Nat → Transition) : Blueprint where
  maxToken := 1
  states := [
    { rule := 0, kind := .tokensStart, transitions := [.plain 1] },
    { rule := 0, kind := .ruleStart 7 false, transitions := [.plain 2] },
    { rule := 0, kind := .blockStart .choice 4, transitions := [.plain 3, .plain 4] },
    { rule := 0, kind := .basic, transitions := [.atom 2 97] },
    { rule := 0, kind := .blockEnd, transitions := [.plain 5] },
    { rule := 0, kind := .basic, transitions := [first 6] },
    { rule := 0, kind := .basic, transitions := [second 7] },
    { rule := 0, kind := .ruleStop }]
  rules := [⟨1, some 1⟩]
  modes := [0]
  decisions := [0, 2]
  actions := [.custom 0 0]

/-- The lexer of `stars`. -/
def starsNetwork (first second : Nat → Transition) : Network where
  kind := .lexer
  maxToken := 1
  states := #[
    { rule := 0, kind := .tokensStart, transitions := [.plain 1], decision := some 0 },
    { rule := 0, kind := .ruleStart 7 false, transitions := [.plain 2] },
    { rule := 0, kind := .blockStart .choice 4, transitions := [.plain 3, .plain 4],
      decision := some 1 },
    { rule := 0, kind := .basic, transitions := [.atom 2 97] },
    { rule := 0, kind := .blockEnd, transitions := [.plain 5], partner := some 2 },
    { rule := 0, kind := .basic, transitions := [first 6] },
    { rule := 0, kind := .basic, transitions := [second 7] },
    { rule := 0, kind := .ruleStop }]
  decisions := #[0, 2]
  ruleStarts := #[1]
  ruleStops := #[7]
  ruleTokens := #[1]
  modes := #[0]
  actions := #[.custom 0 0]

/-- A custom command of the host. -/
def command (target : Nat) : Transition :=
  .action target 0 (some 0) false

/-- The character `b`. -/
def letterB (target : Nat) : Transition :=
  .atom target 98

/-- Matches with the lexer of `stars`, whose host does nothing. -/
def starsSetup (first second : Nat → Transition) : LexerSetup Unit where
  grammar := ⟨starsNetwork first second, {}⟩
  host := {}
  fuel := 20

/-- The text `abaab`, at a position and with tables. -/
def atAbaab (position : Nat) (tables : Tables) : Scanner Unit where
  input := { CharStream.ofText "abaab" "stars" with position }
  host := ()
  tables := tables

/-- The tables after a match at the start of `abaab`. -/
def tablesOfStars (first second : Nat → Transition) : Tables :=
  ((Scan.matchToken (starsSetup first second) 0).run
    (atAbaab 0 (.ofNetwork (starsNetwork first second)))).2.tables

theorem cached_tablesOfStars (first second : Nat → Transition) :
    Tables.Cached (starsNetwork first second) (tablesOfStars first second) :=
  .matched (starsSetup first second) rfl 0 (atAbaab 0 (.ofNetwork (starsNetwork first second)))
    (Nat.zero_le _) .fresh

open Scan in
/-- With the command at the end, the second match of `abaab` is the same with empty tables. -/
theorem matchToken_transparent_stars :
    ((matchToken (starsSetup letterB command) 0).run
      (atAbaab 2 (tablesOfStars letterB command))).1.toOption =
    ((matchToken (starsSetup letterB command) 0).run
      (atAbaab 2 (.ofNetwork (starsNetwork letterB command)))).1.toOption := by
  have built : Network.assemble .lexer (stars letterB command) =
      .ok (starsNetwork letterB command) := by decide +kernel
  have trail : (starsNetwork letterB command).commandsTrailWithin 5 = true := by decide +kernel
  let s := atAbaab 2 (.ofNetwork (starsNetwork letterB command))
  let s' := atAbaab 2 (tablesOfStars letterB command)
  have inside : s.input.position ≤ s.input.size := by decide +kernel
  have chars : s'.input.chars = s.input.chars := rfl
  have place : s'.place = s.place := rfl
  have ends (s : Scanner Unit)
      (ok : ((matchToken (starsSetup letterB command) 0).run s).1.toOption.isSome) (fault : Fault) :
      ((matchToken (starsSetup letterB command) 0).run s).1 ≠ .error (.fault fault) := by
    intro failed
    rw [failed] at ok
    cases ok
  exact (matchToken_transparent built (by decide) (by decide)
    (Network.commandsTrail_of_within trail) (starsSetup letterB command) rfl 0 inside chars place
    .fresh (cached_tablesOfStars letterB command) (ends s (by decide +kernel))
    (ends s' (by decide +kernel))).1

open Scan in
/-- With the command before `b`, the second match of `abaab` pins it where the first one did, and
with empty tables where it stands. -/
theorem matchToken_pinned :
    Network.assemble .lexer (stars command letterB) = .ok (starsNetwork command letterB) ∧
    ((matchToken (starsSetup command letterB) 0).run
      (atAbaab 2 (tablesOfStars command letterB))).1.toOption =
        some { type := 1, actions := some [.pinned 1 (.custom 0 0)] } ∧
    ((matchToken (starsSetup command letterB) 0).run
      (atAbaab 2 (.ofNetwork (starsNetwork command letterB)))).1.toOption =
        some { type := 1, actions := some [.pinned 2 (.custom 0 0)] } := by
  refine ⟨by decide +kernel, by decide +kernel, by decide +kernel⟩

end AdaptiveLL
