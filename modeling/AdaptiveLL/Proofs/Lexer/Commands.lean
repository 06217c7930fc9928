import AdaptiveLL.Lexer.Basic
import AdaptiveLL.Proofs.Lexer.Transparency
/-!
What the commands of a match see. They leave the input where the match has ended. In a lexer
none of whose custom commands is followed by a character, each of them is given the text from the
start of the token to the end of the match (`matchOnce_commands`). Another command goes back to its
distance from the start of the match, but counts it from that of the token (`next_continued`).
-/
namespace AdaptiveLL

namespace Thread

variable {n : Network} {t t' : Thread} {ts ts' : List Thread} {fuel : Nat}
  {crossEof accepted : Bool} {x : Symbol}

/-- The thread carries no command that is pinned to a place. -/
def IsUnpinned (t : Thread) : Prop :=
  ∀ actions ∈ t.actions, ∀ a ∈ actions, a.isPinned = false

theorem IsUnpinned.cross (unpinned : ∀ a ∈ n.actions, a.isPinned = false) (h : t.IsUnpinned)
    {e : Transition} (crossed : t.cross n crossEof e = some t') : t'.IsUnpinned := by
  cases e with
  | action target rule index contextual =>
      simp only [Thread.cross] at crossed
      split at crossed
      case h_1 action bottom known =>
          obtain rfl := Option.some.inj crossed
          obtain ⟨number, -, found⟩ := Option.bind_eq_some_iff.1 known
          intro actions pushed a mem
          obtain rfl := Option.some.inj pushed
          rcases List.mem_append.1 mem with old | last
          · cases carried : t.actions with
            | none => simp [carried] at old
            | some actions => exact h actions carried a (by simpa [carried] using old)
          · obtain rfl := List.mem_singleton.1 last
            exact unpinned a (Array.mem_of_getElem? found)
      case h_2 =>
          obtain rfl := Option.some.inj crossed
          exact h
  | call | epsilon =>
      obtain rfl := Option.some.inj crossed
      exact h
  | atom | range | set =>
      simp only [Thread.cross] at crossed
      split at crossed
      · obtain rfl := Option.some.inj crossed
        exact h
      · cases crossed
  | notSet | wildcard | precedence | predicate => cases crossed

theorem settle_unpinned (unpinned : ∀ a ∈ n.actions, a.isPinned = false) {new : List Thread}
    {b : Bool} (h : t.IsUnpinned) (settled : t.settle n crossEof fuel accepted = some (b, new)) :
    ∀ t' ∈ new, t'.IsUnpinned := fun t' mem =>
  (settle_all (fun _ _ _ _ _ _ _ h => h) (fun _ _ _ _ _ _ _ crossed h => h.cross unpinned crossed)
    h settled t' mem).1

theorem LeadTo.unpinned (unpinned : ∀ a ∈ n.actions, a.isPinned = false) (quiet : AllQuiet n ts)
    (holds : ∀ t ∈ ts, t.IsUnpinned) (h : LeadTo n ts x ts') : ∀ t ∈ ts', t.IsUnpinned := by
  obtain ⟨fuel, offset, h⟩ := h
  refine reach_all (fun t mem s e here memE reads accepted b new settled => ?_) h
  obtain ⟨isQuiet, keeps⟩ := quiet t mem
  rw [read_eq (isQuiet.isFixed keeps here memE reads)] at settled
  have moved : (t.move n e.target).IsUnpinned := holds t mem
  exact settle_unpinned unpinned moved settled

theorem Begins.unpinned (unpinned : ∀ a ∈ n.actions, a.isPinned = false) {start : Nat}
    (h : Begins n start ts) : ∀ t ∈ ts, t.IsUnpinned := by
  obtain ⟨fuel, h⟩ := h
  refine starts_all (fun e i b new settled => settle_unpinned unpinned ?_ settled) h
  exact fun actions none => nomatch none

theorem mem_of_finish? {k : Nat} {f : Finish} (found : finish? n k ts = some f) :
    f.thread ∈ ts := by
  obtain ⟨⟨t, rule⟩, best, rfl⟩ := Option.map_eq_some_iff.1 found
  obtain ⟨t', mem, eq⟩ := List.exists_of_findSome?_eq_some best
  obtain ⟨s, -, eq⟩ := Option.map_eq_some_iff.1 eq
  obtain ⟨rfl, -⟩ := Prod.mk.inj eq
  exact mem

/-- What holds of the threads at the start and is kept when they read holds of the winner. -/
theorem Scans.all {P : Thread → Prop} {cs : List Symbol} {k stop : Nat} {last win : Option Finish}
    (next : ∀ ts x ts', (∀ t ∈ ts, P t) → LeadTo n ts x ts' → ∀ t ∈ ts', P t)
    (h : Scans n cs k ts last stop win) (holds : ∀ t ∈ ts, P t)
    (before : ∀ f ∈ last, P f.thread) : ∀ f ∈ win, P f.thread := by
  induction h with
  | ended => exact before
  | @read c cs k stop ts ts' last win lead alive rest ih =>
      have holds' := next ts c ts' holds lead
      refine ih holds' fun f found => ?_
      rcases Option.or_eq_some_iff.1 found with here | ⟨-, old⟩
      · exact holds' _ (mem_of_finish? here)
      · exact before f old
  | @finishAtEnd k ts ts' last win lead alive found =>
      intro f mem
      obtain rfl := Option.some.inj mem
      exact next ts _ ts' holds lead _ (mem_of_finish? found)
  | goOnAtEnd lead alive unfinished rest ih => exact ih (next _ _ _ holds lead) before

/-- The winner of a match carries no pinned command, if no character follows a custom one. -/
theorem Scans.unpinned (trail : n.CommandsTrail) (unpinned : ∀ a ∈ n.actions, a.isPinned = false)
    {start : Nat} (begins : Begins n start ts) {cs : List Symbol} {k stop : Nat}
    {win : Option Finish} (h : Scans n cs k ts (finish? n k ts) stop win) :
    ∀ f ∈ win, f.thread.IsUnpinned := by
  let Holds (t : Thread) : Prop := (t.IsQuiet n ∧ n.Keeps t.place) ∧ t.IsUnpinned
  have next : ∀ ts x ts', (∀ t ∈ ts, Holds t) → LeadTo n ts x ts' → ∀ t ∈ ts', Holds t := by
    intro ts x ts' holds lead t mem
    have quiet : AllQuiet n ts := fun t mem => (holds t mem).1
    exact ⟨lead.quiet trail quiet t mem,
      lead.unpinned unpinned quiet (fun t mem => (holds t mem).2) t mem⟩
  have first : ∀ t ∈ ts, Holds t := fun t mem =>
    ⟨begins.quiet trail t mem, begins.unpinned unpinned t mem⟩
  exact fun f found => (h.all next first (fun f here => first _ (mem_of_finish? here)) f found).2

end Thread

namespace Lexer

variable {τ : Type} {l l' l'' : Lexer τ} {n : Network}

section Leaving

variable {R : Lexer τ → Lexer τ → Prop} (joins : ∀ l l' l'', R l l' → R l' l'' → R l l'')
  (seeks : ∀ l position, R l (l.seek position)) (applies : ∀ l a, R l (l.apply a))

include joins seeks applies

theorem execute_leaves (stop : Nat) (l : Lexer τ) (a : LexerAction) : R l (l.execute stop a) := by
  cases a with
  | pinned offset a => exact joins _ _ _ (seeks l _) (applies _ a)
  | custom => exact joins _ _ _ (seeks l _) (applies _ _)
  | channel | mode | more | popMode | pushMode | skip | type => exact applies l _

/-- What neither a command nor a change of the place alters, the commands of a match leave as it is. -/
theorem executeAll_leaves (refl : ∀ l, R l l) (l : Lexer τ) (actions : ActionList) :
    R l (l.executeAll actions) := by
  rw [Lexer.executeAll]
  generalize l.scanner.input.position = stop
  refine joins _ _ _ ?_ (seeks _ stop)
  induction actions generalizing l with
  | nil => exact refl l
  | cons a actions ih => exact joins _ _ _ (execute_leaves joins seeks applies stop l a) (ih _)

end Leaving

/-- The lexers work on the same text with the same tables, and are at the same token. -/
structure AtSameToken (l l' : Lexer τ) : Prop where
  setup : l'.setup = l.setup
  tables : l'.scanner.tables = l.scanner.tables
  chars : l'.scanner.input.chars = l.scanner.input.chars
  tokenStart : l'.tokenStart = l.tokenStart
  text : l'.text? = l.text?
  fault : l'.fault = l.fault

namespace AtSameToken

theorem trans (h : l.AtSameToken l') (h' : l'.AtSameToken l'') : l.AtSameToken l'' :=
  ⟨h'.setup.trans h.setup, h'.tables.trans h.tables, h'.chars.trans h.chars,
    h'.tokenStart.trans h.tokenStart, h'.text.trans h.text, h'.fault.trans h.fault⟩

theorem seek (l : Lexer τ) (position : Nat) : l.AtSameToken (l.seek position) :=
  ⟨rfl, rfl, rfl, rfl, rfl, rfl⟩

theorem apply (l : Lexer τ) (a : LexerAction) : l.AtSameToken (l.apply a) := by
  induction a generalizing l with
  | pinned offset a ih => exact ih l
  | popMode =>
      rw [Lexer.apply, popMode]
      split <;> exact ⟨rfl, rfl, rfl, rfl, rfl, rfl⟩
  | channel | custom | mode | more | pushMode | skip | type => exact ⟨rfl, rfl, rfl, rfl, rfl, rfl⟩

theorem execute (stop : Nat) (l : Lexer τ) (a : LexerAction) :
    l.AtSameToken (l.execute stop a) :=
  execute_leaves (R := AtSameToken) (fun _ _ _ => trans) seek apply stop l a

theorem executeAll (l : Lexer τ) (actions : ActionList) : l.AtSameToken (l.executeAll actions) :=
  executeAll_leaves (R := AtSameToken) (fun _ _ _ => trans) seek apply
    (fun _ => ⟨rfl, rfl, rfl, rfl, rfl, rfl⟩) l actions

/-- The text up to a position is the same. -/
theorem text_seek (h : l.AtSameToken l') (position : Nat) :
    (l'.seek position).text = (l.seek position).text := by
  simp only [Lexer.text, Lexer.seek, CharStream.seek, CharStream.text, CharStream.size, h.text,
    h.chars, h.tokenStart]

end AtSameToken

/-- After its commands the input stands where the match has ended. -/
theorem position_executeAll (inside : l.scanner.input.position ≤ l.scanner.input.size)
    (actions : ActionList) :
    (l.executeAll actions).scanner.input.position = l.scanner.input.position := by
  have size : (actions.foldl (execute l.scanner.input.position) l).scanner.input.size =
      l.scanner.input.size := congrArg Array.size (AtSameToken.executeAll l actions).chars
  rw [executeAll, seek, CharStream.seek, size]
  exact Nat.min_eq_left inside

/-- What a command that is not pinned does to the host, given the text of the token. -/
def heed (act : String → Nat → Nat → τ → τ) (text : String) (host : τ) : LexerAction → τ
  | .custom rule index => act text rule index host
  | _ => host

/-- Commands that are not pinned are given the text up to the end of the match. -/
theorem host_executeAll (inside : l.scanner.input.position ≤ l.scanner.input.size)
    {actions : ActionList} (unpinned : ∀ a ∈ actions, a.isPinned = false) :
    (l.executeAll actions).scanner.host =
      actions.foldl (heed l.setup.host.action l.text) l.scanner.host := by
  have here : l.seek l.scanner.input.position = l := by
    simp only [seek, CharStream.seek, Nat.min_eq_left inside]
  rw [executeAll]
  change (actions.foldl _ l).scanner.host = _
  generalize hstop : l.scanner.input.position = stop at here
  rw [← congrArg Lexer.text here]
  clear hstop here inside
  induction actions generalizing l with
  | nil => rfl
  | cons a actions ih =>
      obtain ⟨first, rest⟩ := List.forall_mem_cons.1 unpinned
      have same := AtSameToken.execute stop l a
      have host : (l.execute stop a).scanner.host =
          heed l.setup.host.action (l.seek stop).text l.scanner.host a := by
        cases a with
        | pinned => cases first
        | popMode =>
            change l.popMode.scanner.host = l.scanner.host
            rw [popMode]
            split <;> rfl
        | custom | channel | mode | more | pushMode | skip | type => rfl
      rw [List.foldl_cons, List.foldl_cons, ih rest, same.setup, same.text_seek, host]

/-- The lexer belongs to the network, no match of it went wrong but for the input, and its tokens
have no text but their own. -/
structure Ready (n : Network) (l : Lexer τ) : Prop where
  network : l.setup.grammar.network = n
  cached : Tables.Cached n l.scanner.tables
  inside : l.scanner.input.position ≤ l.scanner.input.size
  text : l.text? = none
  sane : l.fault = none

theorem ready_ofInput (u : LexerSetup τ) (host : τ) (text name : String) :
    Ready u.grammar.network
      (ofInput u (.ofNetwork u.grammar.network) host (.ofText text name)) :=
  ⟨rfl, .fresh, Nat.zero_le _, rfl, rfl⟩

theorem Ready.executeAll (h : l.Ready n) (actions : ActionList) : (l.executeAll actions).Ready n := by
  have same := AtSameToken.executeAll l actions
  refine ⟨same.setup ▸ h.network, same.tables ▸ h.cached, ?_, same.text.trans h.text,
    same.fault.trans h.sane⟩
  rw [position_executeAll h.inside, CharStream.size, same.chars]
  exact h.inside

theorem Ready.recover (h : l.Ready n) : l.recover.Ready n := by
  rw [Lexer.recover]
  split
  · exact h
  · refine ⟨h.network, ?_, ?_, h.text, h.sane⟩
    · change Tables.Cached n l.scanner.consume.tables
      rw [Scanner.tables_consume]
      exact h.cached
    · change l.scanner.consume.input.position ≤ l.scanner.consume.input.size
      rw [Scanner.input_consume]
      exact CharStream.consume_position_le _

end Lexer

section

variable {τ : Type} {n : Network} {s : Scanner τ} {u : LexerSetup τ}

/-- What a match leaves unless it runs out of fuel: the input inside its text, and in a lexer
where no character follows a custom command, no pinned commands. -/
theorem Scan.matchToken_keeps (mode : Nat) (scannable : n.IsScannable) (lexer : n.kind = .lexer)
    (hu : u.grammar.network = n) (cached : Tables.Cached n s.tables)
    (inside : s.input.position ≤ s.input.size) :
    let result := (matchToken u mode).run s
    (∃ fault, result.1 = .error (.fault fault)) ∨
      ((∃ error, result.1 = .error (.recoverable error)) ∨ ∃ m, result.1 = .ok m ∧
        (n.CommandsTrail → (∀ a ∈ n.actions, a.isPinned = false) →
          ∀ a ∈ m.actions.getD [], a.isPinned = false)) ∧
      result.2.input.chars = s.input.chars ∧ result.2.input.position ≤ result.2.input.size := by
  have sound := cached.sound scannable lexer
  intro result
  cases hstart : n.modes[mode]? with
  | none =>
      have missing : ¬ mode < n.modes.size := Nat.not_lt.2 (Array.getElem?_eq_none_iff.1 hstart)
      simp only [result]
      rw [run_matchToken, if_neg (sound.size ▸ missing)]
      exact .inr ⟨.inl ⟨_, rfl⟩, rfl, inside⟩
  | some start =>
      obtain ⟨outcome, t, run, -, chars, ends⟩ :=
        matchToken_ends scannable hu sound inside hstart
      simp only [result]
      rw [run]
      rcases ends with ⟨ts, stop, win, begins, scans, ends⟩ | ⟨failed, -⟩
      · have size : t.input.size = s.input.size := congrArg Array.size chars
        have within {k : Nat} (place : t.place = (Scanner.consume^[k] s).place) :
            t.input.position ≤ t.input.size := by
          have position : t.input.position = (Scanner.consume^[k] s).input.position :=
            (Prod.mk.inj place).1
          rw [size, position]
          exact Scanner.position_iterate_consume_le inside k
        cases win with
        | some f =>
            refine .inr ⟨.inr ⟨_, ends.1, fun trail unpinned => ?_⟩, chars, within ends.2⟩
            have none := scans.unpinned trail unpinned begins f rfl
            cases carried : f.thread.actions with
            | none => simp [Finish.toMatch, carried]
            | some actions => simpa [Finish.toMatch, carried] using none actions carried
        | none =>
            obtain ⟨place, answer⟩ := ends
            refine .inr ⟨?_, chars, within place⟩
            split at answer
            case isTrue =>
                exact .inr ⟨_, answer, fun _ _ a mem => nomatch mem⟩
            case isFalse => exact .inl answer
      · exact .inl failed

end

namespace Lexer

open Scan

variable {τ : Type} {n : Network} {l : Lexer τ}

/-- One match with its commands, if the match succeeds. -/
theorem matchOnce_ok {m : Match} (found : ((matchToken l.setup l.mode).run l.scanner).1 = .ok m) :
    l.matchOnce = (m.type,
      let l' := { l with scanner := ((matchToken l.setup l.mode).run l.scanner).2 }
      (m.actions.map l'.executeAll).getD l') := by
  rw [matchOnce]
  generalize (matchToken l.setup l.mode).run l.scanner = result at found ⊢
  obtain ⟨outcome, s⟩ := result
  obtain rfl : outcome = .ok m := found
  rfl

/-- A match with its commands leaves the lexer ready, unless it runs out of fuel. -/
theorem Ready.matchOnce (scannable : n.IsScannable) (lexer : n.kind = .lexer) (ready : l.Ready n)
    (sane : l.matchOnce.2.fault = none) : l.matchOnce.2.Ready n := by
  have cached := Tables.Cached.matched l.setup ready.network l.mode l.scanner ready.inside ready.cached
  have keeps := matchToken_keeps l.mode scannable lexer ready.network ready.cached ready.inside
  revert sane
  rw [Lexer.matchOnce]
  generalize (matchToken l.setup l.mode).run l.scanner = result at cached keeps
  obtain ⟨outcome, s⟩ := result
  intro sane
  rcases keeps with ⟨fault, failed⟩ | ⟨answer, chars, inside⟩
  · obtain rfl : outcome = .error (.fault fault) := failed
    cases sane
  · have ready' (sane : l.fault = none) : Ready n { l with scanner := s } :=
      ⟨ready.network, cached, inside, ready.text, sane⟩
    rcases answer with ⟨error, failed⟩ | ⟨m, ok, -⟩
    · obtain rfl : outcome = .error (.recoverable error) := failed
      have reported : (Lexer.reportError { l with scanner := s } error).Ready n :=
        ⟨ready.network, cached, inside, ready.text, ready.sane⟩
      exact reported.recover
    · obtain rfl : outcome = .ok m := ok
      cases carried : m.actions with
      | none =>
          simp only [carried]
          exact ready' ready.sane
      | some actions =>
          simp only [carried]
          exact (ready' ready.sane).executeAll actions

/-- What follows a match: the next one, or a token. -/
def proceed (fuel : Nat) (found : Symbol × Lexer τ) : Option Token × Lexer τ :=
  let l := found.2
  let l := { l with
    atEnd := l.atEnd || l.scanner.input.lookahead 1 == Symbol.eof
    type := if l.type = Symbol.invalid then found.1 else l.type }
  if l.fault.isSome then (none, l)
  else if l.type = skipped then nextWithin fuel false l
  else if l.type = continued then nextWithin fuel true l
  else if l.type = Symbol.eof then (some l.emitEof, l)
  else (some l.emit, l)

/-- The lexer before its next match, at the same token or at the next one. -/
def prepare (extending : Bool) (l : Lexer τ) : Lexer τ :=
  { (if extending then l else l.beginToken) with type := Symbol.invalid }

theorem nextWithin_succ {fuel : Nat} {extending : Bool} (going : ¬ (!extending && l.atEnd) = true) :
    nextWithin (fuel + 1) extending l = proceed fuel (l.prepare extending).matchOnce := by
  rw [nextWithin, if_neg going]
  rfl

theorem Ready.prepare (ready : l.Ready n) (extending : Bool) : (l.prepare extending).Ready n := by
  cases extending with
  | true => exact ⟨ready.network, ready.cached, ready.inside, ready.text, ready.sane⟩
  | false => exact ⟨ready.network, ready.cached, ready.inside, rfl, ready.sane⟩

/-- In a lexer without predicates, none of whose custom commands is followed by a character, every
custom command of a match is given the text from the start of the token, which earlier matches may
have begun, to the end of the match, and the input is left there. -/
theorem matchOnce_commands {plan : Blueprint} (built : Network.assemble .lexer plan = .ok n)
    (small : n.states.size ≤ noState) (unguarded : n.IsUnguarded) (trail : n.CommandsTrail)
    (unpinned : ∀ a ∈ n.actions, a.isPinned = false) (ready : l.Ready n) {m : Match}
    (found : ((matchToken l.setup l.mode).run l.scanner).1 = .ok m) :
    let result := (matchToken l.setup l.mode).run l.scanner
    let text := l.scanner.input.text l.tokenStart result.2.input.position
    l.matchOnce.2.scanner.input.position = result.2.input.position ∧
      l.matchOnce.2.scanner.host =
        (m.actions.getD []).foldl (heed l.setup.host.action text) result.2.host := by
  intro result text
  have scannable : n.IsScannable := ⟨Network.wellFormed_of_assemble built, small, unguarded⟩
  obtain ⟨fault, failed⟩ | ⟨answer, chars, inside⟩ :=
    matchToken_keeps l.mode scannable (Network.kind_of_assemble built) ready.network
      ready.cached ready.inside
  · cases found.symm.trans failed
  obtain ⟨error, failed⟩ | ⟨m', found', free⟩ := answer
  · cases found.symm.trans failed
  obtain rfl := Except.ok.inj (found.symm.trans found')
  let l' : Lexer τ := { l with scanner := result.2 }
  have shown : l'.text = text := by
    have chars : result.2.input.chars = l.scanner.input.chars := chars
    simp only [Lexer.text, l', ready.text, Option.getD_none, CharStream.text, chars, text]
  rw [matchOnce_ok found]
  cases carried : m.actions with
  | none => exact ⟨rfl, rfl⟩
  | some actions =>
      have free : ∀ a ∈ actions, a.isPinned = false := by
        simpa [carried] using free trail unpinned
      refine ⟨position_executeAll (l := l') inside actions, ?_⟩
      rw [← shown]
      exact host_executeAll (l := l') inside free

/-- A rule that reads `x` and is extended by the next match, and a rule that reads `a` and then has
two edges of its own. -/
def joined (first second : Nat → Transition) : Blueprint where
  maxToken := 2
  states := [
    { rule := 0, kind := .tokensStart, transitions := [.plain 1, .plain 4] },
    { rule := 0, kind := .ruleStart 3 false, transitions := [.atom 2 120] },
    { rule := 0, kind := .basic, transitions := [.action 3 0 (some 0) false] },
    { rule := 0, kind := .ruleStop },
    { rule := 1, kind := .ruleStart 7 false, transitions := [.atom 5 97] },
    { rule := 1, kind := .basic, transitions := [first 6] },
    { rule := 1, kind := .basic, transitions := [second 7] },
    { rule := 1, kind := .ruleStop }]
  rules := [⟨1, some 1⟩, ⟨4, some 2⟩]
  modes := [0]
  decisions := [0]
  actions := [.more, .custom 1 0]

/-- The lexer of `joined`. -/
def joinedNetwork (first second : Nat → Transition) : Network where
  kind := .lexer
  maxToken := 2
  states := #[
    { rule := 0, kind := .tokensStart, transitions := [.plain 1, .plain 4], decision := some 0 },
    { rule := 0, kind := .ruleStart 3 false, transitions := [.atom 2 120] },
    { rule := 0, kind := .basic, transitions := [.action 3 0 (some 0) false] },
    { rule := 0, kind := .ruleStop },
    { rule := 1, kind := .ruleStart 7 false, transitions := [.atom 5 97] },
    { rule := 1, kind := .basic, transitions := [first 6] },
    { rule := 1, kind := .basic, transitions := [second 7] },
    { rule := 1, kind := .ruleStop }]
  decisions := #[0]
  ruleStarts := #[1, 4]
  ruleStops := #[3, 7]
  ruleTokens := #[1, 2]
  modes := #[0]
  actions := #[.more, .custom 1 0]

/-- The custom command of `joined`. -/
def ownCommand (target : Nat) : Transition :=
  .action target 1 (some 1) false

/-- The host of this lexer notes the texts that it is given. -/
def joinedSetup (first second : Nat → Transition) : LexerSetup (List String) where
  grammar := ⟨joinedNetwork first second, {}⟩
  host := { action := fun text _ _ seen => seen ++ [text] }
  fuel := 20

/-- The lexer of `joined` at the start of `xab`. -/
def atXab (first second : Nat → Transition) : Lexer (List String) :=
  .ofInput (joinedSetup first second) (.ofNetwork (joinedNetwork first second)) []
    (.ofText "xab" "joined")

/-- The lexer of `joined` behind `x`, where the token goes on. -/
def behindX (first second : Nat → Transition) : Lexer (List String) :=
  ((atXab first second).prepare false).matchOnce.2.prepare true

/-- With the command at the end, it is given the whole token. -/
theorem matchOnce_commands_joined :
    (behindX letterB ownCommand).matchOnce.2.scanner.host = ["xab"] := by
  have built : Network.assemble .lexer (joined letterB ownCommand) =
      .ok (joinedNetwork letterB ownCommand) := by decide +kernel
  have trail : (joinedNetwork letterB ownCommand).commandsTrailWithin 5 = true := by decide +kernel
  have trail := Network.commandsTrail_of_within trail
  have small : (joinedNetwork letterB ownCommand).states.size ≤ noState := by decide
  have unguarded : (joinedNetwork letterB ownCommand).IsUnguarded := by decide
  have scannable : (joinedNetwork letterB ownCommand).IsScannable :=
    ⟨Network.wellFormed_of_assemble built, small, unguarded⟩
  have fresh : (atXab letterB ownCommand).Ready (joinedNetwork letterB ownCommand) :=
    ready_ofInput (joinedSetup letterB ownCommand) [] "xab" "joined"
  have sane : ((atXab letterB ownCommand).prepare false).matchOnce.2.fault.isNone = true := by
    decide +kernel
  have ready : (behindX letterB ownCommand).Ready (joinedNetwork letterB ownCommand) :=
    ((fresh.prepare false).matchOnce scannable rfl (Option.isNone_iff_eq_none.1 sane)).prepare true
  have found : ((matchToken (behindX letterB ownCommand).setup (behindX letterB ownCommand).mode).run
      (behindX letterB ownCommand).scanner).1 =
        .ok { type := 2, actions := some [.custom 1 0] } := by decide +kernel
  refine (matchOnce_commands built small unguarded trail (by decide) ready found).2.trans ?_
  decide +kernel

/-- With the command before `b`, the text that it is given ends behind `x`, one character before
the command. -/
theorem next_continued :
    Network.assemble .lexer (joined ownCommand letterB) =
      .ok (joinedNetwork ownCommand letterB) ∧
    (atXab ownCommand letterB).next.2.scanner.host = ["x"] :=
  ⟨by decide +kernel, by decide +kernel⟩

end Lexer

end AdaptiveLL
