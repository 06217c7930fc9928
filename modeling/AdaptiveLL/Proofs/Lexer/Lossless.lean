import AdaptiveLL.Proofs.Lexer.Commands
import AdaptiveLL.Proofs.Lexer.Located
import AdaptiveLL.Proofs.Lexer.Positions
/-!
What the tokens of a lexer keep of its text. In a lexer whose token rules match no empty text, which
skips nothing and gives no negative types, the tokens cover the whole text if no error was reported,
but for one that is still open at the end of the text (`allTokens_lossless`, `allTokens_open`).
-/
namespace AdaptiveLL

open Relation (ReflTransGen)

namespace Text

/-- The text from one place up to another. -/
def piece (cs : Array Char) (start stop : Nat) : String :=
  String.ofList (cs.extract start stop).toList

variable {cs : Array Char} {i j k : Nat}

theorem piece_append (le : i ≤ j) (le' : j ≤ k) : piece cs i j ++ piece cs j k = piece cs i k := by
  rw [piece, piece, ← String.ofList_append, ← Array.toList_append, Array.extract_append_extract,
    Nat.min_eq_left le, Nat.max_eq_right le', piece]

@[simp] theorem piece_self (cs : Array Char) (i : Nat) : piece cs i i = "" := by
  simp [piece]

@[simp] theorem piece_all (text : String) :
    piece text.toList.toArray 0 text.toList.toArray.size = text := by
  rw [piece, Array.extract_size, List.toList_toArray, String.ofList_toList]

end Text

namespace Network

variable {n : Network}

/-- A command of the lexer lets the next match go on with the token. -/
def Joins (n : Network) : Prop :=
  ∃ a ∈ n.actions, a.core = .more

/-- No token rule of the lexer matches the empty text, no command skips a token, and no rule and no
command gives a negative type. -/
structure KeepsText (n : Network) : Prop where
  endless : ∀ start ∈ n.modes, ∀ p ∈ n.opening start, ¬ n.IsEnd p
  types : ∀ s ∈ n.states, s.isRuleStop = true → 0 ≤ (n.ruleTokens[s.rule]?).getD Symbol.eof
  noSkip : ∀ a ∈ n.actions, a.core ≠ .skip
  retypes : ∀ a ∈ n.actions, ∀ type, a.core = .type type → 0 ≤ type

theorem isEnd_pastEnd {p : Place} (h : n.IsEnd p) : n.pastEnd.IsEnd p := by
  obtain ⟨bottom, s, here, stop⟩ := h
  exact ⟨bottom, _, states_pastEnd here, stop⟩

/-- A search that finds no end of a rule in the openings of the modes. -/
theorem endless_of_within (fuel : Nat) (endless : ∀ start ∈ n.modes, ∀ s ∈ n.states[start]?,
    ∀ e ∈ s.transitions, n.pastEnd.endlessWithin fuel (e.target, []) = true) :
    ∀ start ∈ n.modes, ∀ p ∈ n.opening start, ¬ n.IsEnd p := by
  rintro start memStart p ⟨s, e, here, mem, path⟩ isEnd
  exact not_isEnd_of_endlessWithin (endless start memStart s here e mem) path (isEnd_pastEnd isEnd)

end Network

/-- The fuel is enough for a match from each place of the text. -/
def LexerSetup.Copes {τ : Type} (n : Network) (u : LexerSetup τ) (cs : Array Char) : Prop :=
  ∀ start ∈ n.modes, ∀ s : CharStream, s.chars = cs →
    ∃ depth < u.fuel, n.Manages depth u.fuel s.remaining (n.opening start)

/-- Without silent cycles some fuel is enough for the text. -/
theorem LexerSetup.exists_copes {n : Network} (acyclic : n.pastEnd.NoSilentCycle) (cs : Array Char) :
    ∃ bound, ∀ {τ : Type} (u : LexerSetup τ), bound ≤ u.fuel → u.Copes n cs := by
  let words := cs.toList.tails.map fun rest =>
    (rest.map fun c => (c.toNat : Symbol)) ++ [Symbol.eof]
  obtain ⟨depth, settles⟩ := Network.exists_settlesOver acyclic words
  refine ⟨cs.size + depth + 2, fun u enough start memStart s chars => ?_⟩
  refine ⟨depth, by omega, .inl ⟨?_, ?_⟩⟩
  · rw [CharStream.length_remaining, CharStream.size, chars]
    omega
  · have suffix : cs.toList.drop s.position ∈ cs.toList.tails :=
      (List.mem_tails _ _).2 (List.drop_suffix _ _)
    have word : s.remaining ++ [Symbol.eof] ∈ words := by
      refine List.mem_map.2 ⟨_, suffix, ?_⟩
      rw [CharStream.remaining, chars]
    exact Network.settlesOver_opening fun st e here mem =>
      settles start memStart st e here mem _ word

namespace LexerAction

/-- The type that a command gives to the token under construction. -/
def type? : LexerAction → Option Symbol
  | .more => some Lexer.continued
  | .skip => some Lexer.skipped
  | .type given => some given
  | .pinned _ action => action.type?
  | .channel _ | .custom .. | .mode _ | .popMode | .pushMode _ => none

theorem core_of_type? {a : LexerAction} {type : Symbol} (gives : a.type? = some type) :
    a.core = .more ∧ type = Lexer.continued ∨ a.core = .skip ∨ a.core = .type type := by
  induction a with
  | pinned offset a ih => exact ih gives
  | more => exact .inl ⟨rfl, (Option.some.inj gives).symm⟩
  | skip => exact .inr (.inl rfl)
  | type t => exact .inr (.inr (congrArg _ (Option.some.inj gives)))
  | channel | custom | mode | popMode | pushMode => cases gives

end LexerAction

/-- A command of such a lexer lets the token go on or gives it a type. -/
theorem Network.KeepsText.type? {n : Network} (keeps : n.KeepsText) {a : LexerAction}
    (command : n.Commands a) {type : Symbol} (gives : a.type? = some type) :
    0 ≤ type ∨ type = Lexer.continued ∧ n.Joins := by
  obtain ⟨b, mem, core⟩ := command
  have own := LexerAction.core_of_type? gives
  rw [core] at own
  rcases own with ⟨more, rfl⟩ | skip | retypes
  · exact .inr ⟨rfl, b, mem, more⟩
  · exact absurd skip (keeps.noSkip b mem)
  · exact .inl (keeps.retypes b mem type retypes)

namespace Lexer

variable {τ : Type} {n : Network} {l l' : Lexer τ} {cs : Array Char}

@[simp] theorem type_seek (l : Lexer τ) (position : Nat) : (l.seek position).type = l.type :=
  rfl

theorem type_apply (l : Lexer τ) (a : LexerAction) : (l.apply a).type = a.type?.getD l.type := by
  induction a generalizing l with
  | pinned offset a ih => exact ih l
  | popMode =>
      rw [Lexer.apply, popMode]
      split <;> rfl
  | channel | custom | mode | more | pushMode | skip | type => rfl

theorem type_execute (stop : Nat) (l : Lexer τ) (a : LexerAction) :
    (l.execute stop a).type = a.type?.getD l.type := by
  cases a with
  | pinned offset a => exact type_apply _ a
  | custom => exact type_apply _ _
  | channel | mode | more | popMode | pushMode | skip | type => exact type_apply l _

/-- Commands leave the type as it is, or one of them gives it. -/
theorem type_executeAll (l : Lexer τ) (actions : ActionList) :
    (l.executeAll actions).type = l.type ∨
      ∃ a ∈ actions, a.type? = some (l.executeAll actions).type := by
  rw [executeAll, type_seek]
  generalize l.scanner.input.position = stop
  induction actions generalizing l with
  | nil => exact .inl rfl
  | cons a actions ih =>
      rcases ih (l.execute stop a) with kept | ⟨b, mem, gives⟩
      · rw [List.foldl_cons, kept, type_execute]
        cases eq : a.type? with
        | none => exact .inl rfl
        | some type => exact .inr ⟨a, .head _, eq⟩
      · exact .inr ⟨b, .tail _ mem, gives⟩

/-- The commands have been run: the lexer is at the same token and the same place, and has the type
that it had, or one that a command gave. -/
structure Obeys (l : Lexer τ) (actions : ActionList) (l' : Lexer τ) : Prop where
  token : l.AtSameToken l'
  line : l.AtSameLine l'
  position : l'.scanner.input.position = l.scanner.input.position
  type : l'.type = l.type ∨ ∃ a ∈ actions, a.type? = some l'.type

theorem obeys_executeAll (inside : l.scanner.input.position ≤ l.scanner.input.size)
    (actions : ActionList) : l.Obeys actions (l.executeAll actions) where
  token := .executeAll l actions
  line := .executeAll l actions
  position := position_executeAll inside actions
  type := type_executeAll l actions

/-- A match runs the commands that it has, if any. -/
theorem obeys_match (inside : l.scanner.input.position ≤ l.scanner.input.size)
    (actions : Option ActionList) :
    l.Obeys (actions.getD []) ((actions.map l.executeAll).getD l) := by
  cases actions with
  | some actions => exact obeys_executeAll inside actions
  | none => exact ⟨⟨rfl, rfl, rfl, rfl, rfl, rfl⟩, .refl l, rfl, .inl rfl⟩

theorem Obeys.ready {actions : ActionList} (h : l.Obeys actions l') (ready : l.Ready n) :
    l'.Ready n := by
  refine ⟨h.token.setup ▸ ready.network, h.token.tables ▸ ready.cached, ?_,
    h.token.text.trans ready.text, h.token.fault.trans ready.sane⟩
  rw [h.position, CharStream.size, h.token.chars]
  exact ready.inside

/-- The lexer reads this text, with enough fuel. -/
structure AtWork (n : Network) (cs : Array Char) (l : Lexer τ) : Prop where
  ready : l.Ready n
  chars : l.scanner.input.chars = cs
  copes : l.setup.Copes n cs
  ended : l.atEnd = true → l.scanner.input.position = cs.size

namespace AtWork

theorem inside (work : l.AtWork n cs) : l.scanner.input.position ≤ cs.size := by
  have inside := work.ready.inside
  rwa [CharStream.size, work.chars] at inside

/-- The text of the token under construction. -/
theorem text_eq (work : l.AtWork n cs) :
    l.text = Text.piece cs l.tokenStart l.scanner.input.position := by
  rw [Lexer.text, work.ready.text, Option.getD_none, CharStream.text, work.chars, Text.piece]

/-- Fewer tokens are to come when the lexer has moved on. -/
theorem horizon_lt (work : l.AtWork n cs) (work' : l'.AtWork n cs)
    (moved : l.scanner.input.position < l'.scanner.input.position) : l'.horizon < l.horizon := by
  have inside := work'.inside
  have going : l.atEnd = false := by
    rw [← Bool.not_eq_true]
    intro atEnd
    have := work.ended atEnd
    omega
  have size : l'.scanner.input.size = cs.size := by rw [CharStream.size, work'.chars]
  have size' : l.scanner.input.size = cs.size := by rw [CharStream.size, work.chars]
  rw [horizon, horizon, going, size, size', if_neg Bool.false_ne_true]
  split <;> omega

end AtWork

/-- The lexer after a match. -/
def settled (found : Symbol × Lexer τ) : Lexer τ :=
  { found.2 with
    atEnd := found.2.atEnd || found.2.scanner.input.lookahead 1 == Symbol.eof
    type := if found.2.type = Symbol.invalid then found.1 else found.2.type }

theorem proceed_eq (fuel : Nat) (found : Symbol × Lexer τ) :
    proceed fuel found =
      if (settled found).fault.isSome then (none, settled found)
      else if (settled found).type = skipped then nextWithin fuel false (settled found)
      else if (settled found).type = continued then nextWithin fuel true (settled found)
      else if (settled found).type = Symbol.eof then (some (settled found).emitEof, settled found)
      else (some (settled found).emit, settled found) :=
  rfl

/-- What a match of such a lexer does: it finds a token, or a part of one that goes on, or it reports
an error and drops a character, or it is at the end of the text. -/
inductive Goes (n : Network) (cs : Array Char) (l l' : Lexer τ) : Prop where
  | token (moved : l.scanner.input.position < l'.scanner.input.position)
      (reports : l'.reports = l.reports) (type : 0 ≤ l'.type)
  | part (moved : l.scanner.input.position < l'.scanner.input.position)
      (reports : l'.reports = l.reports) (type : l'.type = continued) (joins : n.Joins)
  | error (moved : l.scanner.input.position < l'.scanner.input.position ∨ l'.atEnd = true)
      (reports : l.reports.size < l'.reports.size) (type : l'.type = skipped)
  | ended (start : l.scanner.input.position = cs.size) (stop : l'.scanner.input.position = cs.size)
      (reports : l'.reports = l.reports) (type : l'.type = Symbol.eof)

/-- A lexer that has not gone back is at work still. -/
theorem AtWork.settled (work : l.AtWork n cs) (ready : l'.Ready n) (setup : l'.setup = l.setup)
    (chars : l'.scanner.input.chars = cs) (atEnd : l'.atEnd = l.atEnd)
    (begun : l.scanner.input.position ≤ l'.scanner.input.position) (answer : Symbol) :
    (settled (answer, l')).AtWork n cs := by
  refine ⟨⟨ready.network, ready.cached, ready.inside, ready.text, ready.sane⟩, chars,
    setup ▸ work.copes, fun ended => ?_⟩
  have inside := ready.inside
  have size : l'.scanner.input.size = cs.size := by rw [CharStream.size, chars]
  change l'.scanner.input.position = cs.size
  rcases Bool.or_eq_true_iff.1 ended with before | here
  · have := work.ended (atEnd.symm.trans before)
    omega
  · exact ((CharStream.lookahead_one_eq_eof inside).1 (beq_iff_eq.1 here)).trans size

/-- The type of a token that a match has found. -/
theorem type_settled (keeps : n.KeepsText) (fresh : l.type = Symbol.invalid) {type : Symbol}
    {actions : Option ActionList} (gives : n.Gives type actions)
    (obeys : l.Obeys (actions.getD []) l') :
    0 ≤ (settled (type, l')).type ∨ (settled (type, l')).type = continued ∧ n.Joins := by
  obtain ⟨⟨st, mem, stop, rfl⟩, commands⟩ := gives
  change 0 ≤ (if l'.type = Symbol.invalid then _ else l'.type) ∨
    (if l'.type = Symbol.invalid then _ else l'.type) = continued ∧ n.Joins
  split
  · exact .inl (keeps.types st mem stop)
  · rcases obeys.type with kept | ⟨a, given, gives⟩
    · exact absurd (kept.trans fresh) ‹_›
    · exact keeps.type? (commands a given) gives

/-- To recover is to drop a character, unless the end of the input is ahead. -/
theorem recover_cases (inside : l.scanner.input.position ≤ l.scanner.input.size) :
    l.recover = l ∧ l.scanner.input.lookahead 1 = Symbol.eof ∨
      l.recover = { l with scanner := l.scanner.consume } ∧
        l.scanner.consume.input.position = l.scanner.input.position + 1 := by
  unfold recover
  split
  case isTrue atEnd => exact .inl ⟨rfl, atEnd⟩
  case isFalse more =>
      refine .inr ⟨rfl, ?_⟩
      rw [CharStream.lookahead_one_eq_eof inside] at more
      rw [Scanner.input_consume]
      exact Nat.min_eq_left (lt_of_le_of_ne inside more)

/-- After an error the lexer has told of it, and has dropped a character if there was one. -/
theorem AtWork.failed (work : l.AtWork n cs) (fresh : l.type = Symbol.invalid) {s : Scanner τ}
    (scanned : Ready n { l with scanner := s })
    (passes : Scan.Passes n l.scanner.input.position cs s) (error : RecognitionError) :
    let l' := Lexer.settled (skipped, (Lexer.reportError { l with scanner := s } error).recover)
    l'.AtWork n cs ∧ l'.tokenStart = l.tokenStart ∧ Goes n cs l l' := by
  have reported : (Lexer.reportError { l with scanner := s } error).Ready n :=
    ⟨scanned.network, scanned.cached, scanned.inside, scanned.text, scanned.sane⟩
  have told : l.reports.size < (Lexer.reportError { l with scanner := s } error).reports.size := by
    simp [Lexer.reportError]
  have recovered := reported.recover
  rcases recover_cases reported.inside with ⟨same, atEnd⟩ | ⟨dropped, moved⟩
  · rw [same]
    refine ⟨work.settled reported rfl passes.chars rfl passes.begun _, rfl,
      .error (.inr ?_) told (if_pos fresh)⟩
    exact Bool.or_eq_true_iff.2 (.inr (beq_iff_eq.2 atEnd))
  · have moved : l.scanner.input.position < s.consume.input.position :=
      (Nat.lt_succ_of_le passes.begun).trans_eq moved.symm
    have chars : s.consume.input.chars = cs := by
      rw [Scanner.input_consume]
      exact passes.chars
    rw [dropped] at recovered ⊢
    exact ⟨work.settled recovered rfl chars rfl moved.le _, rfl,
      .error (.inl moved) told (if_pos fresh)⟩

/-- After a match the lexer is at work still, and its token has begun where it began before. -/
theorem settled_matchOnce (wf : n.WellFormed) (small : n.states.size ≤ noState)
    (lexer : n.kind = .lexer) (keeps : n.KeepsText) (work : l.AtWork n cs)
    (fresh : l.type = Symbol.invalid) :
    (settled l.matchOnce).AtWork n cs ∧ (settled l.matchOnce).tokenStart = l.tokenStart ∧
      Goes n cs l (settled l.matchOnce) := by
  have cached := Tables.Cached.matched l.setup work.ready.network l.mode l.scanner work.ready.inside
    work.ready.cached
  have passes := Scan.matchToken_located wf small work.ready.network keeps.endless
    (work.ready.cached.located wf small lexer keeps.endless) work.ready.inside l.mode
  rw [work.chars] at passes
  unfold Step.Ensures at passes
  rw [matchOnce]
  generalize (Scan.matchToken l.setup l.mode).run l.scanner = result at cached passes
  obtain ⟨outcome, s⟩ := result
  dsimp only at cached
  have scanned (passes : Scan.Passes n l.scanner.input.position cs s) :
      Ready n { l with scanner := s } :=
    ⟨work.ready.network, cached, passes.inside.trans_eq (congrArg Array.size passes.chars.symm),
      work.ready.text, work.ready.sane⟩
  cases outcome with
  | ok m =>
      obtain ⟨passes, gets⟩ := passes
      have obeys := obeys_match (scanned passes).inside m.actions
      refine ⟨work.settled (obeys.ready (scanned passes)) obeys.token.setup
        (obeys.token.chars.trans passes.chars) obeys.line.atEnd
        (passes.begun.trans_eq obeys.position.symm) m.type, obeys.token.tokenStart, ?_⟩
      rcases gets with ⟨moved, gives⟩ | ⟨rfl, here, atEnd⟩
      · have moved := moved.trans_eq obeys.position.symm
        have reports := obeys.line.reports
        have type := type_settled (l := { l with scanner := s }) keeps fresh gives obeys
        rcases type with type | ⟨more, joins⟩
        · exact .token moved reports type
        · exact .part moved reports more joins
      · refine .ended atEnd (here.trans atEnd) rfl ?_
        exact if_pos fresh
  | error failure =>
      obtain ⟨passes, failed⟩ := passes
      rcases failed with ⟨error, rfl⟩ | ⟨-, start, memStart, lacks⟩
      · exact work.failed fresh (scanned passes) passes error
      · obtain ⟨depth, lt, manages⟩ := work.copes start memStart l.scanner.input work.chars
        exact absurd manages (lacks depth lt)

/-- The text that the lexer has matched without giving out a token. It had come to the end of the
text when the next match was to go on with it. -/
def unfinished (l : Lexer τ) : String :=
  if l.type = Symbol.eof then l.text else ""

/-- What such a lexer gives for the text from `begun` on: the token for the first part of it, or the
end of the input. -/
inductive Gives (n : Network) (cs : Array Char) (l : Lexer τ) (begun : Nat) :
    Option Token × Lexer τ → Prop where
  | token {t : Token} {l' : Lexer τ} (moved : l.scanner.input.position < l'.scanner.input.position)
      (type : 0 ≤ t.type) (going : l'.type ≠ Symbol.eof)
      (text : l'.reports.size = l.reports.size →
        t.text = Text.piece cs begun l'.scanner.input.position) : Gives n cs l begun (some t, l')
  | ended {t : Token} {l' : Lexer τ} (type : t.isEof = true)
      (text : l'.reports.size = l.reports.size → l'.unfinished = Text.piece cs begun cs.size)
      (single : ¬ n.Joins → l'.unfinished = "") : Gives n cs l begun (some t, l')

/-- What a lexer gives from a later place on, it gives from an earlier one on, unless it has reported
an error between them. -/
theorem Gives.of_later {begun begun' : Nat} {found : Option Token × Lexer τ}
    (h : Gives n cs l' begun' found)
    (moved : l.scanner.input.position ≤ l'.scanner.input.position)
    (silent : found.2.reports.size = l.reports.size →
      l'.reports.size = l.reports.size ∧ begun' = begun) : Gives n cs l begun found := by
  cases h with
  | token moved' type going text =>
      refine .token (moved.trans_lt moved') type going fun same => ?_
      obtain ⟨reports, rfl⟩ := silent same
      exact text (same.trans reports.symm)
  | ended type text single =>
      refine .ended type (fun same => ?_) single
      obtain ⟨reports, rfl⟩ := silent same
      exact text (same.trans reports.symm)

theorem AtWork.prepare (work : l.AtWork n cs) (extending : Bool) :
    (l.prepare extending).AtWork n cs := by
  cases extending <;> exact ⟨work.ready.prepare _, work.chars, work.copes, work.ended⟩

/-- The way to the next token: match by match, until one gives a token or is at the end of the
text. -/
theorem nextWithin_gives (wf : n.WellFormed) (small : n.states.size ≤ noState)
    (lexer : n.kind = .lexer) (keeps : n.KeepsText) (fuel : Nat) (extending : Bool)
    (work : l.AtWork n cs) (going : extending = false → l.type ≠ Symbol.eof)
    (joins : extending = true → n.Joins)
    (enough : l.horizon + 2 ≤ fuel ∨ (!extending && l.atEnd) = true ∧ 0 < fuel) :
    let found := nextWithin fuel extending l
    found.2.AtWork n cs ∧ l.reports.size ≤ found.2.reports.size ∧
      Gives n cs l (l.prepare extending).tokenStart found := by
  induction fuel generalizing l extending with
  | zero => omega
  | succ fuel ih =>
      by_cases atEnd : (!extending && l.atEnd) = true
      · rw [nextWithin, if_pos atEnd]
        obtain ⟨single, ended⟩ := Bool.and_eq_true_iff.1 atEnd
        obtain rfl : extending = false := Bool.not_eq_true' _ ▸ single
        have closed : l.unfinished = "" := if_neg (going rfl)
        refine ⟨work, Nat.le_refl _, .ended rfl (fun _ => ?_) fun _ => closed⟩
        change l.unfinished = Text.piece cs l.scanner.input.position cs.size
        rw [closed, work.ended ended, Text.piece_self]
      · have enough : l.horizon + 2 ≤ fuel + 1 := enough.resolve_right fun h => atEnd h.1
        rw [nextWithin_succ atEnd, proceed_eq]
        obtain ⟨work', start, goes⟩ :=
          settled_matchOnce wf small lexer keeps (work.prepare extending) rfl
        generalize settled (l.prepare extending).matchOnce = l' at work' start goes
        rw [if_neg (by simp [work'.ready.sane])]
        have less (moved : l.scanner.input.position < l'.scanner.input.position) :
            l'.horizon + 2 ≤ fuel :=
          have := work.horizon_lt work' moved
          by omega
        have scanner := scanner_prepare extending l
        have reports := reports_prepare extending l
        cases goes with
        | token moved same type =>
            rw [scanner] at moved
            have going : l'.type ≠ Symbol.eof := fun eof => absurd (eof ▸ type) (by decide)
            rw [if_neg fun skip => absurd (skip ▸ type) (by decide),
              if_neg fun more => absurd (more ▸ type) (by decide), if_neg going]
            refine ⟨work', ?_, .token moved type going fun _ => ?_⟩
            · rw [same, reports]
            · exact work'.text_eq.trans (congrArg (Text.piece cs · _) start)
        | part moved same type joins =>
            rw [scanner] at moved
            rw [if_neg (type ▸ by decide), if_pos type]
            obtain ⟨work'', told, gives⟩ := ih true work' (fun single => by cases single)
              (fun _ => joins) (.inl (less moved))
            rw [same, reports] at told
            refine ⟨work'', told, gives.of_later moved.le fun _ => ⟨?_, start⟩⟩
            rw [same, reports]
        | error moved same type =>
            rw [scanner] at moved
            rw [reports] at same
            rw [if_pos type]
            have enough' : l'.horizon + 2 ≤ fuel ∨ (!false && l'.atEnd) = true ∧ 0 < fuel :=
              moved.imp less fun ended => ⟨ended, by omega⟩
            have onward : l.scanner.input.position ≤ l'.scanner.input.position := by
              rcases moved with moved | ended
              · exact moved.le
              · exact work.inside.trans_eq (work'.ended ended).symm
            obtain ⟨work'', told, gives⟩ := ih false work' (fun _ => type ▸ by decide)
              (fun more => by cases more) enough'
            exact ⟨work'', same.le.trans told, gives.of_later onward fun eq => by omega⟩
        | ended here there same type =>
            rw [scanner] at here
            rw [if_neg (type ▸ by decide), if_neg (type ▸ by decide), if_pos type]
            have left : l'.unfinished = Text.piece cs (l.prepare extending).tokenStart cs.size := by
              rw [unfinished, if_pos type, work'.text_eq, start, there]
            refine ⟨work', ?_, .ended rfl (fun _ => left) fun single => left.trans ?_⟩
            · rw [same, reports]
            · cases extending with
              | true => exact absurd (joins rfl) single
              | false =>
                  change Text.piece cs l.scanner.input.position cs.size = ""
                  rw [here, Text.piece_self]

/-- The tokens of a lexer end with the end of the input. They cover the text together with what is
unfinished, if no error is reported on the way. -/
structure Covers (n : Network) (cs : Array Char) (l : Lexer τ) (found : List Token × Lexer τ) :
    Prop where
  sane : found.2.fault = none
  told : l.reports.size ≤ found.2.reports.size
  split : ∃ tokens last, found.1 = tokens ++ [last] ∧ last.isEof = true ∧
    (∀ t ∈ tokens, 0 ≤ t.type) ∧
    (found.2.reports.size = l.reports.size →
      String.join (tokens.map Token.text) ++ found.2.unfinished =
        Text.piece cs l.scanner.input.position cs.size)
  single : ¬ n.Joins → found.2.unfinished = ""

theorem takeWithin_covers (wf : n.WellFormed) (small : n.states.size ≤ noState)
    (lexer : n.kind = .lexer) (keeps : n.KeepsText) (fuel : Nat) (work : l.AtWork n cs)
    (going : l.type ≠ Symbol.eof) (enough : l.horizon < fuel) :
    Covers n cs l (takeWithin fuel l) := by
  induction fuel generalizing l with
  | zero => omega
  | succ fuel ih =>
      obtain ⟨work', told, gives⟩ := nextWithin_gives wf small lexer keeps
        (l.horizon + 2 + l.setup.fuel) false work (fun _ => going) (fun more => by cases more)
        (.inl (Nat.le_add_right _ _))
      rw [takeWithin, next?]
      generalize nextWithin (l.horizon + 2 + l.setup.fuel) false l = found at work' told gives
      cases gives with
      | @ended t l' type text single =>
          dsimp only
          rw [if_pos type]
          exact ⟨work'.ready.sane, told, ⟨[], t, rfl, type, by simp, text⟩, single⟩
      | @token t l' moved type going' text =>
          have inner : ¬ t.isEof = true := fun eof =>
            absurd (beq_iff_eq.1 eof ▸ type) (by decide)
          dsimp only
          rw [if_neg inner]
          have less : l'.horizon < fuel :=
            (work.horizon_lt work' moved).trans_le (Nat.le_of_lt_succ enough)
          have covers : Covers n cs l' (takeWithin fuel l') := ih work' going' less
          obtain ⟨tokens, last, eq, isEof, types, whole⟩ := covers.split
          have told' := covers.told
          refine ⟨covers.sane, told.trans told', ⟨t :: tokens, last, by simp [eq], isEof,
            List.forall_mem_cons.2 ⟨type, types⟩, fun same => ?_⟩, covers.single⟩
          dsimp only at told same
          rw [List.map_cons, String.join_cons, String.append_assoc, whole (by omega), text (by omega)]
          exact Text.piece_append moved.le work'.inside

/-- A lexer whose token rules match no empty text, which skips no token and has no negative type,
whatever its predicates answer and its commands do: it comes to the end of the input, and if it
reports no error, the texts of the tokens before are the text, but for what is unfinished at its end.
Without a command that lets the next match go on with a token nothing is. -/
theorem allTokens_lossless {plan : Blueprint} (built : Network.assemble .lexer plan = .ok n)
    (small : n.states.size ≤ noState) (keeps : n.KeepsText) (acyclic : n.pastEnd.NoSilentCycle)
    (text : String) : ∃ bound, ∀ {τ : Type} (u : LexerSetup τ) (tables : Tables) (host : τ)
      (name : String), u.grammar.network = n → bound ≤ u.fuel → Tables.Cached n tables →
      let result := (ofInput u tables host (.ofText text name)).allTokens
      result.2.fault = none ∧ ∃ tokens last, result.1 = tokens ++ [last] ∧ last.isEof = true ∧
        (∀ t ∈ tokens, 0 ≤ t.type) ∧
        (result.2.reports = #[] →
          String.join (tokens.map Token.text) ++ result.2.unfinished = text) ∧
        (¬ n.Joins → result.2.unfinished = "") := by
  obtain ⟨bound, copes⟩ := LexerSetup.exists_copes acyclic text.toList.toArray
  refine ⟨bound, fun u tables host name hu enough cached => ?_⟩
  have work : AtWork n text.toList.toArray (ofInput u tables host (.ofText text name)) :=
    ⟨⟨hu, cached, Nat.zero_le _, rfl, rfl⟩, rfl, copes u enough, fun ended => by cases ended⟩
  have covers := takeWithin_covers (Network.wellFormed_of_assemble built) small
    (Network.kind_of_assemble built) keeps _ work (by decide : Symbol.invalid ≠ Symbol.eof)
    (Nat.lt_succ_self _)
  obtain ⟨tokens, last, eq, isEof, types, whole⟩ := covers.split
  refine ⟨covers.sane, tokens, last, eq, isEof, types, fun silent => ?_, covers.single⟩
  exact (whole (congrArg Array.size silent)).trans (Text.piece_all text)

theorem keepsText_joined : (joinedNetwork letterB ownCommand).KeepsText where
  endless := Network.endless_of_within 4 (by decide +kernel)
  types := by decide
  noSkip := by decide
  retypes := by simp [joinedNetwork, LexerAction.core]

/-- With enough fuel, a token made of two matches has the text of both. -/
theorem allTokens_lossless_joined : ∃ fuel,
    let u := { joinedSetup letterB ownCommand with fuel }
    let l := ofInput u (.ofNetwork (joinedNetwork letterB ownCommand)) [] (.ofText "xab" "joined")
    l.allTokens.2.fault = none ∧ ∃ tokens last, l.allTokens.1 = tokens ++ [last] ∧
      last.isEof = true ∧ (l.allTokens.2.reports = #[] →
        String.join (tokens.map Token.text) ++ l.allTokens.2.unfinished = "xab") := by
  have built : Network.assemble .lexer (joined letterB ownCommand) =
      .ok (joinedNetwork letterB ownCommand) := by decide +kernel
  have descends : (joinedNetwork letterB ownCommand).pastEnd.Descends fun q => 8 - q := by
    decide +kernel
  obtain ⟨bound, lossless⟩ := allTokens_lossless built (by decide) keepsText_joined
    (Network.noSilentCycle_of_descends descends) "xab"
  refine ⟨bound, ?_⟩
  obtain ⟨sane, tokens, last, eq, isEof, -, whole, -⟩ := lossless
    { joinedSetup letterB ownCommand with fuel := bound }
    (.ofNetwork (joinedNetwork letterB ownCommand)) [] "joined" rfl (Nat.le_refl _) .fresh
  exact ⟨sane, tokens, last, eq, isEof, whole⟩

/-- A rule that reads `x` and lets the next match go on with the token. -/
def openEnded : Blueprint where
  maxToken := 1
  states := [
    { rule := 0, kind := .tokensStart, transitions := [.plain 1] },
    { rule := 0, kind := .ruleStart 3 false, transitions := [.atom 2 120] },
    { rule := 0, kind := .basic, transitions := [.action 3 0 (some 0) false] },
    { rule := 0, kind := .ruleStop }]
  rules := [⟨1, some 1⟩]
  modes := [0]
  decisions := [0]
  actions := [.more]

/-- The lexer of `openEnded`. -/
def openEndedNetwork : Network where
  kind := .lexer
  maxToken := 1
  states := #[
    { rule := 0, kind := .tokensStart, transitions := [.plain 1], decision := some 0 },
    { rule := 0, kind := .ruleStart 3 false, transitions := [.atom 2 120] },
    { rule := 0, kind := .basic, transitions := [.action 3 0 (some 0) false] },
    { rule := 0, kind := .ruleStop }]
  decisions := #[0]
  ruleStarts := #[1]
  ruleStops := #[3]
  ruleTokens := #[1]
  modes := #[0]
  actions := #[.more]

/-- The lexer of `openEnded` at the start of `x`. -/
def atLoneX : Lexer Unit :=
  .ofInput { grammar := ⟨openEndedNetwork, {}⟩, host := {}, fuel := 20 }
    (.ofNetwork openEndedNetwork) () (.ofText "x" "open")

/-- The token stays open at the end of the text. The only token that is given out is the end of the
input, and no error is reported. -/
theorem allTokens_open :
    Network.assemble .lexer openEnded = .ok openEndedNetwork ∧ openEndedNetwork.KeepsText ∧
      atLoneX.allTokens.1.map Token.type = [Symbol.eof] ∧
      atLoneX.allTokens.2.reports.isEmpty = true ∧ atLoneX.allTokens.2.unfinished = "x" := by
  refine ⟨by decide +kernel, ⟨?_, by decide, by decide, ?_⟩, by decide +kernel, by decide +kernel,
    by decide +kernel⟩
  · exact Network.endless_of_within 4 (by decide +kernel)
  · simp [openEndedNetwork, LexerAction.core]

end Lexer

end AdaptiveLL
