import AdaptiveLL.Proofs.Lexer.Commands
import AdaptiveLL.Proofs.Lexer.Footprint
/-!
Lines and columns. A scanner counts them while it moves over its text, and however it gets to a
place, by reading on, by going back to where a rule was finished or by dropping a character, they
are those of the place. So every token has the line and the column of its first character, and every
mistake those of the token that was under construction (`serve_positions`).
-/
namespace AdaptiveLL

namespace Text

variable {cs : List Char} {c : Char} {i : Nat}

/-- The line of the character with number `i`: one more than there are line breaks before it. -/
def lineAt (cs : List Char) (i : Nat) : Nat :=
  1 + (cs.take i).count '\n'

/-- The column of the character with number `i`: the number of characters between it and the last
line break before it, or the start of the text. -/
def columnAt (cs : List Char) (i : Nat) : Nat :=
  ((cs.take i).reverse.takeWhile (· ≠ '\n')).length

@[simp] theorem lineAt_zero (cs : List Char) : lineAt cs 0 = 1 := by
  rw [lineAt, List.take_zero, List.count_nil]

@[simp] theorem columnAt_zero (cs : List Char) : columnAt cs 0 = 0 := by
  rw [columnAt, List.take_zero]
  rfl

theorem lineAt_succ (here : cs[i]? = some c) :
    lineAt cs (i + 1) = if c = '\n' then lineAt cs i + 1 else lineAt cs i := by
  rw [lineAt, lineAt, List.take_add_one, here, Option.toList_some, List.count_append,
    List.count_singleton]
  split <;> simp_all
  omega

theorem columnAt_succ (here : cs[i]? = some c) :
    columnAt cs (i + 1) = if c = '\n' then 0 else columnAt cs i + 1 := by
  rw [columnAt, columnAt, List.take_add_one, here, Option.toList_some, List.reverse_append,
    List.reverse_singleton, List.singleton_append, List.takeWhile_cons]
  split <;> simp_all

end Text

/-! ### Scanners -/

namespace Scanner

variable {τ : Type} {s : Scanner τ} {cs : Array Char}

/-- The scanner reads the text `cs`, and its line and column are those of its place there. -/
structure Exact (cs : Array Char) (s : Scanner τ) : Prop where
  chars : s.input.chars = cs
  inside : s.input.position ≤ cs.size
  line : s.line = Text.lineAt cs.toList s.input.position
  column : s.column = Text.columnAt cs.toList s.input.position

/-- What has nothing to do with the place may change. -/
theorem Exact.congr {s' : Scanner τ} (h : s.Exact cs) (chars : s'.input.chars = s.input.chars)
    (place : s'.place = s.place) : s'.Exact cs := by
  obtain ⟨position, lineColumn⟩ := Prod.mk.inj place
  obtain ⟨line, column⟩ := Prod.mk.inj lineColumn
  exact ⟨chars.trans h.chars, position ▸ h.inside, position ▸ line.trans h.line,
    position ▸ column.trans h.column⟩

/-- Reading on keeps count, unless there is no character left. -/
theorem Exact.consume (h : s.Exact cs) (more : s.input.lookahead 1 ≠ Symbol.eof) :
    s.consume.Exact cs := by
  have look : s.input.lookahead 1 =
      ((s.input.chars[s.input.position]?.map fun c => (c.toNat : Int))).getD Symbol.eof := by
    rw [CharStream.lookahead_one, CharStream.remaining, List.headD_eq_head?_getD, List.head?_map,
      List.head?_drop, Array.getElem?_toList]
  obtain ⟨c, here⟩ : ∃ c, cs[s.input.position]? = some c := by
    refine Option.isSome_iff_exists.1 (Option.isSome_iff_ne_none.2 fun none => more ?_)
    rw [look, h.chars, none]
    rfl
  have inside := (Array.getElem?_eq_some_iff.1 here).1
  have here' : cs.toList[s.input.position]? = some c := by rw [Array.getElem?_toList, here]
  have moved : s.input.consume.position = s.input.position + 1 := by
    rw [CharStream.consume, CharStream.size, h.chars]
    exact Nat.min_eq_left inside
  have break_iff : s.input.lookahead 1 = 10 ↔ c = '\n' := by
    rw [look, h.chars, here, ← Char.toNat_inj]
    exact Int.natCast_inj (n := 10)
  refine ⟨by rw [input_consume]; exact h.chars, by rw [input_consume, moved]; exact inside, ?_, ?_⟩
  · rw [input_consume, moved, Text.lineAt_succ here', ← h.line, Scanner.consume]
    simp only [break_iff]
    split <;> rfl
  · rw [input_consume, moved, Text.columnAt_succ here', ← h.column, Scanner.consume]
    simp only [break_iff]
    split <;> rfl

/-- Back at the start. -/
theorem Exact.reset (h : s.Exact cs) :
    ({ s with input := s.input.seek 0 } : Scanner τ).reset.Exact cs where
  chars := h.chars
  inside := Nat.le_trans (Nat.min_le_left 0 _) (Nat.zero_le _)
  line := by
    change 1 = Text.lineAt cs.toList (min 0 _)
    rw [Nat.zero_min, Text.lineAt_zero]
  column := by
    change 0 = Text.columnAt cs.toList (min 0 _)
    rw [Nat.zero_min, Text.columnAt_zero]

theorem Exact.ofText (host : τ) (tables : Tables) (text name : String) :
    ({ input := .ofText text name, host, tables } : Scanner τ).Exact text.toList.toArray where
  chars := rfl
  inside := Nat.zero_le _
  line := (Text.lineAt_zero _).symm
  column := (Text.columnAt_zero _).symm

/-- The scanner is still where `s₀` is. -/
def Unmoved (s₀ s : Scanner τ) : Prop :=
  s.input = s₀.input ∧ s.start = s₀.start ∧ s.place = s₀.place

theorem Unmoved.exact {s₀ : Scanner τ} (h : Unmoved s₀ s) (exact : s₀.Exact cs) : s.Exact cs :=
  exact.congr (congrArg CharStream.chars h.1) h.2.2

theorem ignores_unmoved (k : Nat) (s₀ : Scanner τ) : Ignores k (Unmoved s₀) :=
  ⟨fun h _ => h, fun h => h, fun h => h⟩

end Scanner

namespace Scan

variable {τ : Type} {u : LexerSetup τ}

/-- What has been remembered of a place in the text `cs` is true of it. -/
structure Recalls (cs : Array Char) (a : Acceptance) : Prop where
  inside : a.position ≤ cs.size
  line : a.line = Text.lineAt cs.toList a.position
  column : a.column = Text.columnAt cs.toList a.position

variable {cs : Array Char} {last : Option Acceptance}

theorem acceptance_recalls (state : TableState) (recalls : ∀ a ∈ last, Recalls cs a) {s : Scanner τ}
    (exact : s.Exact cs) : (acceptance state last).Ensures s
      (fun last' s' => s' = s ∧ ∀ a ∈ last', Recalls cs a) fun _ _ => False := by
  unfold acceptance
  split
  · exact .of_ok rfl ⟨rfl, recalls⟩
  · refine .of_ok rfl ⟨rfl, fun a mem => ?_⟩
    obtain rfl := Option.some.inj mem
    exact ⟨exact.inside, exact.line, exact.column⟩

theorem conclude_exact (source : TableState) (symbol : Symbol)
    (recalls : ∀ a ∈ last, Recalls cs a) :
    (conclude source symbol last : Scan τ Match).Preserves (Scanner.Exact cs) := by
  refine .bind_get fun s exact => ?_
  cases last with
  | some a =>
      have there := recalls a rfl
      have position : (s.input.seek a.position).position = a.position := by
        rw [CharStream.seek, CharStream.size, exact.chars]
        exact Nat.min_eq_left there.inside
      refine Step.Preserves.bind_run (x := set _) ?_ fun _ => .pure _
      exact ⟨exact.chars, position.le.trans there.inside, there.line.trans (congrArg _ position.symm),
        there.column.trans (congrArg _ position.symm)⟩
  | none => exact Step.Preserves.ite (.pure _) (.throw _) s exact

/-- However far a match reads on, it ends at a place whose line and column are known. -/
theorem readOn_exact (k fuel : Nat) (source : TableState) (recalls : ∀ a ∈ last, Recalls cs a) :
    (readOn u k fuel source last).Preserves (Scanner.Exact cs) := by
  induction fuel generalizing source last with
  | zero => exact .throw _
  | succ fuel ih =>
      refine .bind_get fun s exact => ?_
      refine Step.Ensures.state (.bind ?_)
      refine ((target_preserves (Scanner.ignores_unmoved k s) source _).ensures ⟨rfl, rfl, rfl⟩).imp (fun found s₁ unmoved => ?_)
        fun _ s₁ unmoved => unmoved.exact exact
      have exact₁ := unmoved.exact exact
      cases found with
      | dead => exact (conclude_exact source _ recalls).ensures exact₁
      | state next =>
          dsimp only
          split
          case isTrue eof =>
              split
              · refine .bind ((acceptance_recalls next recalls exact₁).imp ?_ fun _ _ => False.elim)
                rintro last' _ ⟨rfl, recalls'⟩
                exact (conclude_exact source _ recalls').ensures exact₁
              · exact (ih next recalls).ensures exact₁
          case isFalse more =>
              have exact₂ := exact₁.consume (unmoved.1 ▸ more)
              refine .bind (.of_ok rfl (.bind ?_))
              refine (acceptance_recalls next recalls exact₂).imp ?_ fun _ _ => False.elim
              rintro last' _ ⟨rfl, recalls'⟩
              exact (ih next recalls').ensures exact₂

/-- Line and column belong to the place after a match as they did before it. -/
theorem matchToken_exact (k : Nat) : (matchToken u k).Preserves (Scanner.Exact cs) := by
  refine .bind (.modify fun s exact => exact.congr rfl rfl) fun _ => .bind_get fun s exact => ?_
  refine Step.Preserves.bind_run (x := Step.attempt _) ?_ fun _ =>
    .bind (.modify fun s exact => exact.congr rfl rfl) fun _ => ?_
  · rw [Step.run_attempt]
    have reads : Step.Preserves (Scanner.Exact cs) (do
        let start ← startState u k
        readOn u k u.fuel start (← acceptance start none)) := by
      refine fun s exact => Step.Ensures.state (.bind ?_)
      refine ((startState_preserves (Scanner.ignores_unmoved k s)).ensures ⟨rfl, rfl, rfl⟩).imp (fun start s₁ unmoved => ?_)
        fun _ s₁ unmoved => unmoved.exact exact
      have exact₁ := unmoved.exact exact
      refine .bind ((acceptance_recalls start ?_ exact₁).imp ?_ fun _ _ => False.elim)
      · exact fun a mem => nomatch mem
      · rintro last _ ⟨rfl, recalls⟩
        exact (readOn_exact k _ start recalls).ensures exact₁
    exact Step.Preserves.ite reads (.throw _) s exact
  · rename_i outcome _
    cases outcome with
    | ok found => exact .pure found
    | error failure => exact .throw failure

end Scan

/-! ### Lexers -/

namespace Lexer

variable {τ : Type} {l l' l'' : Lexer τ} {cs : Array Char}

/-- The lexers have the same line and column, for the token under construction too, have reported the
same, and have both come to the end of the input or both not. -/
structure AtSameLine (l l' : Lexer τ) : Prop where
  line : l'.scanner.line = l.scanner.line
  column : l'.scanner.column = l.scanner.column
  tokenLine : l'.tokenLine = l.tokenLine
  tokenColumn : l'.tokenColumn = l.tokenColumn
  reports : l'.reports = l.reports
  atEnd : l'.atEnd = l.atEnd

namespace AtSameLine

theorem refl (l : Lexer τ) : l.AtSameLine l :=
  ⟨rfl, rfl, rfl, rfl, rfl, rfl⟩

theorem trans (h : l.AtSameLine l') (h' : l'.AtSameLine l'') : l.AtSameLine l'' :=
  ⟨h'.line.trans h.line, h'.column.trans h.column, h'.tokenLine.trans h.tokenLine,
    h'.tokenColumn.trans h.tokenColumn, h'.reports.trans h.reports, h'.atEnd.trans h.atEnd⟩

theorem seek (l : Lexer τ) (position : Nat) : l.AtSameLine (l.seek position) :=
  ⟨rfl, rfl, rfl, rfl, rfl, rfl⟩

theorem apply (l : Lexer τ) (a : LexerAction) : l.AtSameLine (l.apply a) := by
  induction a generalizing l with
  | pinned offset a ih => exact ih l
  | popMode =>
      rw [Lexer.apply, popMode]
      split <;> exact ⟨rfl, rfl, rfl, rfl, rfl, rfl⟩
  | channel | custom | mode | more | pushMode | skip | type =>
      exact ⟨rfl, rfl, rfl, rfl, rfl, rfl⟩

theorem executeAll (l : Lexer τ) (actions : ActionList) : l.AtSameLine (l.executeAll actions) :=
  executeAll_leaves (R := AtSameLine) (fun _ _ _ => trans) seek apply refl l actions

end AtSameLine

/-- The token under construction has begun at `k`, and the lexer has noted the line and the column
of this place. -/
structure BeganAt (cs : Array Char) (k : Nat) (l : Lexer τ) : Prop where
  start : l.tokenStart = k
  line : l.tokenLine = Text.lineAt cs.toList k
  column : l.tokenColumn = Text.columnAt cs.toList k

/-- A match that found no token: where the token under construction had begun, and what was wrong. -/
structure Misfit where
  start : Nat
  error : RecognitionError

/-- What is wrong with the next match of a lexer, if anything is. -/
def error? (l : Lexer τ) : Option RecognitionError :=
  match ((Scan.matchToken l.setup l.mode).run l.scanner).1 with
  | .error (.recoverable error) => some error
  | _ => none

/-- The next match as a misfit, if it is one. -/
def misfits (start : Nat) (l : Lexer τ) : List Misfit :=
  (l.error?.map (Misfit.mk start)).toList

/-- The misfits on the way to the next token. `begun` is the start of the token under construction,
if the next match extends it. -/
def misfitsWithin : Nat → Option Nat → Lexer τ → List Misfit
  | 0, _, _ => []
  | fuel + 1, begun, l =>
      if begun.isNone && l.atEnd then []
      else
        let start := begun.getD l.scanner.input.position
        let l := l.prepare begun.isSome
        let (type, l') := l.matchOnce
        let l' := { l' with
          atEnd := l'.atEnd || l'.scanner.input.lookahead 1 == Symbol.eof
          type := if l'.type = Symbol.invalid then type else l'.type }
        l.misfits start ++
          if l'.fault.isSome then []
          else if l'.type = skipped then misfitsWithin fuel none l'
          else if l'.type = continued then misfitsWithin fuel (some start) l'
          else []

/-- The report tells of the misfit, with the line and the column of the start of the token. -/
structure Misfit.ToldBy (cs : Array Char) (f : Misfit) (m : Mistake) : Prop where
  error : m.error = some f.error
  line : m.line = Text.lineAt cs.toList f.start
  column : m.column = Text.columnAt cs.toList f.start

/-- The token has the line and the column of its first character. -/
def Placed (cs : Array Char) (t : Token) : Prop :=
  t.line = Text.lineAt cs.toList t.start ∧ t.column = Text.columnAt cs.toList t.start

/-- The lexer `l'` has reported what `l` has and these misfits. -/
def Reports (cs : Array Char) (l : Lexer τ) (misfits : List Misfit) (l' : Lexer τ) : Prop :=
  ∃ told, l'.reports.toList = l.reports.toList ++ told ∧
    List.Forall₂ (Misfit.ToldBy cs) misfits told

namespace Reports

variable {fs fs' : List Misfit}

theorem none (same : l'.reports = l.reports) : Reports cs l [] l' :=
  ⟨[], by rw [same, List.append_nil], .nil⟩

theorem trans (h : Reports cs l fs l') (h' : Reports cs l' fs' l'') :
    Reports cs l (fs ++ fs') l'' := by
  obtain ⟨told, eq, tells⟩ := h
  obtain ⟨told', eq', tells'⟩ := h'
  exact ⟨told ++ told', by rw [eq', eq, List.append_assoc], List.rel_append tells tells'⟩

end Reports

theorem prepare_beganAt {begun : Option Nat} (exact : l.scanner.Exact cs)
    (begins : ∀ k ∈ begun, l.BeganAt cs k) :
    (l.prepare begun.isSome).BeganAt cs (begun.getD l.scanner.input.position) := by
  cases begun with
  | some k => exact ⟨(begins k rfl).start, (begins k rfl).line, (begins k rfl).column⟩
  | none => exact ⟨rfl, exact.line, exact.column⟩

theorem scanner_prepare (extending : Bool) (l : Lexer τ) :
    (l.prepare extending).scanner = l.scanner := by
  cases extending <;> rfl

theorem reports_prepare (extending : Bool) (l : Lexer τ) :
    (l.prepare extending).reports = l.reports := by
  cases extending <;> rfl

theorem reportError_reports {k : Nat} (begun : l.BeganAt cs k) (error : RecognitionError) :
    Reports cs l [⟨k, error⟩] (l.reportError error) :=
  ⟨[_], Array.toList_push, .cons ⟨rfl, begun.line, begun.column⟩ .nil⟩

theorem recover_exact (exact : l.scanner.Exact cs) : l.recover.scanner.Exact cs := by
  unfold recover
  split
  · exact exact
  · exact exact.consume ‹_›

theorem BeganAt.recover {k : Nat} (begun : l.BeganAt cs k) : l.recover.BeganAt cs k := by
  unfold Lexer.recover
  split
  · exact begun
  · exact ⟨begun.start, begun.line, begun.column⟩

theorem reports_recover (l : Lexer τ) : l.recover.reports = l.reports := by
  unfold recover
  split <;> rfl

/-- After a match the line and the column still belong to the place, those of the token to its
start, and a misfit has been reported there. -/
theorem matchOnce_positions {k : Nat} (exact : l.scanner.Exact cs) (begun : l.BeganAt cs k) :
    l.matchOnce.2.scanner.Exact cs ∧ l.matchOnce.2.BeganAt cs k ∧
      Reports cs l (l.misfits k) l.matchOnce.2 := by
  have exact' := Scan.matchToken_exact (u := l.setup) l.mode l.scanner exact
  rw [matchOnce, misfits, error?]
  generalize (Scan.matchToken l.setup l.mode).run l.scanner = result at exact'
  obtain ⟨outcome, s⟩ := result
  have begun' : BeganAt cs k { l with scanner := s } := ⟨begun.start, begun.line, begun.column⟩
  cases outcome with
  | ok m =>
      cases carried : m.actions with
      | none => simpa [carried] using ⟨exact', begun', .none rfl⟩
      | some actions =>
          have token := AtSameToken.executeAll { l with scanner := s } actions
          have same := AtSameLine.executeAll { l with scanner := s } actions
          have position := position_executeAll (l := { l with scanner := s })
            (exact'.inside.trans_eq (congrArg Array.size exact'.chars.symm)) actions
          simp only [carried, Option.map_some, Option.getD_some]
          refine ⟨exact'.congr token.chars ?_, ⟨?_, ?_, ?_⟩, .none same.reports⟩
          · exact Prod.ext position (Prod.ext same.line same.column)
          · exact token.tokenStart.trans begun.start
          · exact same.tokenLine.trans begun.line
          · exact same.tokenColumn.trans begun.column
  | error failure =>
      cases failure with
      | fatal error => exact ⟨exact', begun', .none rfl⟩
      | fault fault => exact ⟨exact', ⟨begun.start, begun.line, begun.column⟩, .none rfl⟩
      | recoverable error =>
          have told := reportError_reports begun' error
          let failed := Lexer.reportError { l with scanner := s } error
          have began : failed.BeganAt cs k := ⟨begun.start, begun.line, begun.column⟩
          exact ⟨recover_exact (l := failed) exact', began.recover,
            told.trans (.none (reports_recover failed))⟩

/-- On the way to a token the line and the column stay those of the place. The token has those of
its start, and every misfit is reported with those of the token under construction. -/
theorem nextWithin_positions (fuel : Nat) (begun : Option Nat) (exact : l.scanner.Exact cs)
    (begins : ∀ k ∈ begun, l.BeganAt cs k) :
    let found := nextWithin fuel begun.isSome l
    (∀ t ∈ found.1, Placed cs t) ∧ found.2.scanner.Exact cs ∧
      Reports cs l (misfitsWithin fuel begun l) found.2 := by
  have given {t : Token} (placed : Placed cs t) : ∀ t' ∈ some t, Placed cs t' :=
    fun t' mem => Option.some.inj mem ▸ placed
  induction fuel generalizing l begun with
  | zero => exact ⟨fun t mem => (Option.not_mem_none t mem).elim, exact, .none rfl⟩
  | succ fuel ih =>
      unfold misfitsWithin
      by_cases atEnd : (begun.isNone && l.atEnd) = true
      · rw [if_pos atEnd]
        have ended : (!begun.isSome && l.atEnd) = true := by simpa using atEnd
        rw [nextWithin, if_pos ended]
        exact ⟨given ⟨exact.line, exact.column⟩, exact, .none rfl⟩
      rw [if_neg atEnd, nextWithin_succ (by simpa using atEnd)]
      obtain ⟨exact₁, begun₁, reports₁⟩ := matchOnce_positions
        ((scanner_prepare begun.isSome l).symm ▸ exact) (prepare_beganAt exact begins)
      have reports : Reports cs l _ _ := (Reports.none (reports_prepare begun.isSome l)).trans reports₁
      unfold proceed
      dsimp only
      generalize begun.getD l.scanner.input.position = k at begun₁ reports ⊢
      generalize (l.prepare begun.isSome).misfits k = here at reports ⊢
      generalize (l.prepare begun.isSome).matchOnce = found at exact₁ begun₁ reports ⊢
      obtain ⟨answer, l₁⟩ := found
      dsimp only at exact₁ begun₁ reports ⊢
      generalize (if l₁.type = Symbol.invalid then answer else l₁.type) = type
      generalize (l₁.atEnd || l₁.scanner.input.lookahead 1 == Symbol.eof) = atEnd
      let l₂ : Lexer τ := { l₁ with atEnd, type }
      have begun₂ : l₂.BeganAt cs k := ⟨begun₁.start, begun₁.line, begun₁.column⟩
      have reports₂ : Reports cs l ([] ++ here) l₂ := reports
      by_cases failed : l₁.fault.isSome = true
      · rw [if_pos failed, if_pos failed, List.append_nil]
        exact ⟨fun t mem => (Option.not_mem_none t mem).elim, exact₁, reports₂⟩
      rw [if_neg failed, if_neg failed]
      by_cases skip : type = skipped
      · rw [if_pos skip, if_pos skip]
        obtain ⟨placed, exact', reports'⟩ :=
          ih (l := l₂) none exact₁ fun k mem => (Option.not_mem_none k mem).elim
        exact ⟨placed, exact', reports₂.trans reports'⟩
      rw [if_neg skip, if_neg skip]
      by_cases more : type = continued
      · rw [if_pos more, if_pos more]
        obtain ⟨placed, exact', reports'⟩ :=
          ih (l := l₂) (some k) exact₁ fun k' mem => Option.some.inj mem ▸ begun₂
        exact ⟨placed, exact', reports₂.trans reports'⟩
      rw [if_neg more, if_neg more, List.append_nil]
      split
      · exact ⟨given ⟨exact₁.line, exact₁.column⟩, exact₁, reports₂⟩
      · exact ⟨given ⟨begun₂.line.trans (congrArg _ begun₂.start.symm),
          begun₂.column.trans (congrArg _ begun₂.start.symm)⟩, exact₁, reports₂⟩

/-- What can be asked of a lexer. -/
inductive Request where
  | next
  | reset

/-- What a lexer has given out in a series of requests: its tokens, the misfits on the way to them,
and the lexer afterwards. -/
structure Served (τ : Type) where
  tokens : List Token
  misfits : List Misfit
  lexer : Lexer τ

/-- The misfits on the way to the next token. -/
def nextMisfits (l : Lexer τ) : List Misfit :=
  misfitsWithin (l.horizon + 2 + l.setup.fuel) none l

/-- Serve a series of requests, up to one to which there is no answer. -/
def serve : List Request → Lexer τ → Served τ
  | [], l => { tokens := [], misfits := [], lexer := l }
  | .next :: rest, l =>
      match l.next? with
      | (none, l') => { tokens := [], misfits := l.nextMisfits, lexer := l' }
      | (some t, l') =>
          let served := serve rest l'
          { served with
            tokens := t :: served.tokens
            misfits := l.nextMisfits ++ served.misfits }
  | .reset :: rest, l => serve rest l.reset

theorem next?_positions (exact : l.scanner.Exact cs) :
    (∀ t ∈ l.next?.1, Placed cs t) ∧ l.next?.2.scanner.Exact cs ∧
      Reports cs l l.nextMisfits l.next?.2 :=
  nextWithin_positions _ none exact fun _ mem => nomatch mem

theorem serve_exact (requests : List Request) (exact : l.scanner.Exact cs) :
    (∀ t ∈ (serve requests l).tokens, Placed cs t) ∧
      Reports cs l (serve requests l).misfits (serve requests l).lexer := by
  induction requests generalizing l with
  | nil => exact ⟨fun _ => (nomatch ·), .none rfl⟩
  | cons request requests ih =>
      cases request with
      | next =>
          have answered := next?_positions exact
          rw [serve]
          generalize l.next? = found at answered
          obtain ⟨placed, exact', reports⟩ := answered
          obtain ⟨_ | t, l'⟩ := found
          · exact ⟨fun _ => (nomatch ·), reports⟩
          · obtain ⟨all, later⟩ := ih exact'
            exact ⟨List.forall_mem_cons.2 ⟨placed t rfl, all⟩, reports.trans later⟩
      | reset =>
          obtain ⟨all, later⟩ := ih (l := l.reset) exact.reset
          exact ⟨all, (Reports.none rfl).trans later⟩

/-- However often a lexer is asked for a token or put back to the start, whatever its grammar, its
modes, its commands and its host do: every token that it answers with has the line and the column of
its first character, and the lexer has reported each misfit, in their order, at the line and the
column where the token under construction had begun. -/
theorem serve_positions (u : LexerSetup τ) (tables : Tables) (host : τ) (text name : String)
    (requests : List Request) :
    let served := serve requests (ofInput u tables host (.ofText text name))
    (∀ t ∈ served.tokens, t.line = Text.lineAt text.toList t.start ∧
      t.column = Text.columnAt text.toList t.start) ∧
    List.Forall₂ (fun f m => m.error = some f.error ∧ m.line = Text.lineAt text.toList f.start ∧
      m.column = Text.columnAt text.toList f.start) served.misfits served.lexer.reports.toList := by
  obtain ⟨placed, told, eq, tells⟩ := serve_exact requests
    (l := ofInput u tables host (.ofText text name)) (.ofText host tables text name)
  refine ⟨placed, ?_⟩
  rw [eq]
  exact tells.imp fun f m ⟨error, line, column⟩ => ⟨error, line, column⟩

end Lexer

end AdaptiveLL
