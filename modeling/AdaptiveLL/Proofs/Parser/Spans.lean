import AdaptiveLL.Proofs.Parser.Reshaping
import AdaptiveLL.Proofs.Parser.Yield
/-!
The spans of rule nodes. If a parse makes no mistake, every rule node that it makes begins with the
first token below it, and ends with the last one unless that is the end of the input
(`parse_spans`). That the end of the input has been read is noted when one of the edges for this
type alone is crossed, and is used at the exit of ordinary rules alone (`parse_closingRules`).
-/
namespace AdaptiveLL

open AdaptiveLL.Parser (Acts Reshapes)

variable {σ τ : Type} [TokenSource σ] {u : ParserSetup τ} {p p' : Parser σ τ} {f : Frame}
  {fs rest : List Frame} {leaves all : List Leaf} {n : Network} {Live : Nat → Prop} {count : Nat}
  {first : Nat} {ground : Ground}

namespace Parser

/-- How the last leaf of the tree is found again. -/
structure Recalls (n : Network) (p : Parser σ τ) (all : List Leaf) : Prop where
  current : ∀ l ∈ all.getLast?, l.token.isEof = true → l.token = p.currentToken
  passed : ∀ l ∈ all.getLast?, l.token.isEof = false → p.input.before.getLast? = some l.token
  matched : p.matchedEof = true → ∃ l ∈ all.getLast?, l.token.isEof = true
  noticed : n.EndsPlainly → ∀ l ∈ all.getLast?, l.token.isEof = true → p.matchedEof = true

namespace Recalls

theorem congr (h : p.Recalls n all) (current : p'.currentToken = p.currentToken)
    (before : p'.input.before = p.input.before) (matched : p'.matchedEof = p.matchedEof) :
    p'.Recalls n all where
  current l last eof := (h.current l last eof).trans current.symm
  passed l last more := (congrArg List.getLast? before).trans (h.passed l last more)
  matched eof := h.matched (matched ▸ eof)
  noticed plainly l last eof := matched.trans (h.noticed plainly l last eof)

/-- What the exit of an ordinary rule finds. -/
theorem stops_exit (h : p.Recalls n all) (begun : p.input.Begun) {rule : Nat}
    (ordinary : n.isLeftRecursiveRule rule = false) :
    StopsBehind n rule (p.input.lookahead? (if p.matchedEof then 1 else -1)).1 all where
  last l last := by
    cases eof : l.token.isEof with
    | false =>
        have unmatched : p.matchedEof = false := by
          apply Bool.eq_false_iff.2
          intro matched
          obtain ⟨l', last', eof'⟩ := h.matched matched
          cases last.symm.trans last'
          rw [eof] at eof'
          cases eof'
        rw [unmatched, if_neg Bool.false_ne_true, begun.lookahead?_back]
        exact .inl (h.passed l last eof)
    | true =>
        cases matched : p.matchedEof with
        | true =>
            rw [if_pos rfl, h.current l last eof]
            exact .inl (currentToken_of_placed begun.sound.toPlaced)
        | false =>
            refine .inr ⟨rfl, .inr fun plainly => ?_⟩
            rw [h.noticed plainly l last eof] at matched
            cases matched
  early recursive := by
    rw [ordinary] at recursive
    cases recursive

/-- What is found at the end of a call of a left-recursive rule. -/
theorem stops_back (h : p.Recalls n all) (begun : p.input.Begun) {rule : Nat}
    (recursive : n.isLeftRecursiveRule rule = true) :
    StopsBehind n rule (p.input.lookahead? (-1)).1 all where
  last l last := by
    rw [begun.lookahead?_back]
    cases eof : l.token.isEof with
    | false => exact .inl (h.passed l last eof)
    | true => exact .inr ⟨rfl, .inl recursive⟩
  early _ l last eof t found := by
    rw [begun.lookahead?_back] at found
    refine begun.index_ne_of_before (List.mem_of_getLast? found) ?_
    rw [h.current l last eof]
    exact currentToken_of_placed begun.sound.toPlaced

end Recalls

/-- As long as no error is counted, the notes in the nodes from `first` on are about the leaves
there. -/
structure Spanned (u : ParserSetup τ) (first count : Nat) (fs : List Frame) (p : Parser σ τ) :
    Prop where
  begun : p.input.Begun
  counts : count ≤ p.errorCount
  clean : p.errorCount = count → p.recovery.active = false ∧ ∃ e all,
    Laid u.grammar.network p.tree.view first e (some p.currentToken) fs all ∧
    (fs ≠ [] → p.Recalls u.grammar.network all)

namespace Spanned

section Within

variable (build : u.options.buildTrees = true)

include build

/-- A move within a rule that reads nothing. -/
theorem within (h : p.Spanned u first count fs) (acts : Acts u p p' leaves)
    (errors : Leaf.AllErrors leaves) (begun : p'.input.Begun)
    (kept : p'.tree.notes? = p.tree.notes? ∧ p'.matchedEof = p.matchedEof) :
    p'.Spanned u first count fs where
  begun := begun
  counts := Nat.le_trans h.counts acts.errors
  clean same := by
    have le := h.counts
    have more := acts.errors
    obtain ⟨active, e, all, laid, recalls⟩ := h.clean (by omega)
    obtain ⟨active, clean⟩ := acts.calm (by omega) active
    -- Error nodes are put only where an error is counted.
    obtain rfl : leaves = [] := by
      refine List.eq_nil_iff_forall_not_mem.2 fun l mem => ?_
      have error := errors l mem
      rw [clean l mem] at error
      cases error
    have outline : p'.tree.outline = p.tree.outline := by
      rw [acts.grafts build, ParseTree.graft_nil]
    have current : p'.currentToken = p.currentToken :=
      congrArg (Option.getD · _) (h.begun.current_eq acts.passes)
    have before : p'.input.before = p.input.before := by
      have passed := acts.passes.before h.begun.sound
      rwa [List.filterMap_nil, List.append_nil] at passed
    refine ⟨active, e, all, ?_, fun inside => (recalls inside).congr current before kept.2⟩
    rwa [ParseTree.view_of_outline outline kept.1, current]

/-- What fails within a rule has read nothing. -/
theorem of_fails {e : Failure} {N R : Prop} (h : p.Spanned u first count fs)
    (fails : Parser.Fails u N R p e p') (begun : p'.input.Begun)
    (kept : p'.tree.notes? = p.tree.notes? ∧ p'.matchedEof = p.matchedEof) :
    ∀ error, e = .recoverable error → p'.Spanned u first count fs := by
  intro error eq
  obtain ⟨-, leaves, acts, errors⟩ := fails.recoverable error eq
  exact h.within build acts errors begun kept

/-- The current token is read. -/
theorem read (h : p.Spanned u first count (f :: rest)) (here : p.context = some f.context)
    (acts : Acts u p p' leaves) (begun : p'.input.Begun) (notes : p'.tree.notes? = p.tree.notes?)
    (reads : (leaves = [⟨p.currentToken, false⟩] ∧
        (p'.matchedEof = true → p.matchedEof = true ∨ p.currentToken.isEof = true) ∧
        (u.grammar.network.EndsPlainly → p.currentToken.isEof = true → p'.matchedEof = true)) ∨
      ∃ l ∈ leaves, l.isError = true) : p'.Spanned u first count (f :: rest) where
  begun := begun
  counts := Nat.le_trans h.counts acts.errors
  clean same := by
    have le := h.counts
    have more := acts.errors
    obtain ⟨active, e, all, laid, recalls⟩ := h.clean (by omega)
    obtain ⟨active, clean⟩ := acts.calm (by omega) active
    obtain ⟨rfl, matched, noticed⟩ | ⟨l, mem, error⟩ := reads
    case inr =>
        rw [clean l mem] at error
        cases error
    have recalls := recalls (by simp)
    let l : Leaf := ⟨p.currentToken, false⟩
    have index := index_currentToken h.begun.sound.toPlaced
    let put := p.tree.view.put p.tree.size (.leaf l)
    have view : p'.tree.view = put.attach f.context p.tree.size := by
      have outline := acts.grafts build
      rw [here] at outline
      have same := p.tree.outline_addToken f.context p.currentToken false
      rw [← p.tree.view_addToken f.context p.currentToken false]
      refine ParseTree.view_of_outline (outline.trans same.symm) (notes.trans ?_)
      exact (p.tree.notes?_addToken f.context p.currentToken false).symm
    have fresh : p.tree.view.face p.tree.size = none := ParseTree.face?_eq_none (Nat.le_refl _)
    obtain ⟨e', laid⟩ := laid.read l (some p'.currentToken) laid.le_size fresh index
    rw [← view] at laid
    refine ⟨active, e', all ++ [l], laid, fun _ => ?_⟩
    have last {l' : Leaf} (last : l' ∈ (all ++ [l]).getLast?) : l' = l := by
      simpa using last.symm
    constructor
    case current =>
      intro l' last' eof
      obtain rfl := last last'
      have passed : [l].filterMap Leaf.passed? = [] := by simp [l, Leaf.passed?, eof]
      have passes := acts.passes
      rw [passed] at passes
      exact (congrArg (Option.getD · _) (h.begun.current_eq passes)).symm
    case passed =>
      intro l' last' more
      obtain rfl := last last'
      have passed : [l].filterMap Leaf.passed? = [l.token] := by
        obtain ⟨i, index⟩ := Option.ne_none_iff_exists'.1 index
        simp [l, Leaf.passed?, more, index]
      rw [acts.passes.before h.begun.sound, passed, List.getLast?_concat]
    case matched =>
      intro eof
      refine ⟨l, by simp, ?_⟩
      obtain eof | eof := matched eof
      · obtain ⟨l', last, eof⟩ := recalls.matched eof
        rw [recalls.current l' last eof] at eof
        exact eof
      · exact eof
    case noticed =>
      intro plainly l' last' eof
      obtain rfl := last last'
      exact noticed plainly eof

end Within

/-- A move that changes what the active calls are. -/
theorem of_reshapes {v : View} (reshapes : p.Reshapes p' v) (counts : count ≤ p.errorCount)
    (clean : p.errorCount = count → p.recovery.active = false ∧ ∃ e all,
      Laid u.grammar.network v first e (some p.currentToken) fs all ∧
      (fs ≠ [] → p.Recalls u.grammar.network all)) : p'.Spanned u first count fs where
  begun := reshapes.begun
  counts := reshapes.errors ▸ counts
  clean same := by
    obtain ⟨active, e, all, laid, recalls⟩ := clean (reshapes.errors.symm.trans same)
    refine ⟨reshapes.active.trans active, e, all, ?_, fun inside => ?_⟩
    · rwa [reshapes.view, reshapes.current]
    · exact (recalls inside).congr reshapes.current reshapes.before reshapes.matched

end Spanned

end Parser

namespace Parsing

open AdaptiveLL.Parser (Spanned)

/-- What a call makes of the tree. -/
theorem laid_called {e : Layout} {g : Frame} (sound : p.input.Sound)
    (laid : Laid u.grammar.network p.tree.view first e (some p.currentToken) fs all)
    (beyond : first ≤ p.tree.size) (context : g.context = p.tree.size)
    (linked : u.grammar.network.isLeftRecursiveRule g.rule = false →
      g.parent = fs.head?.map Frame.context) :
    Laid u.grammar.network (called u p g.parent g.rule) first e (some p.currentToken) (g :: fs) all := by
  obtain ⟨c, rule, invoking, parent, precedence⟩ := g
  obtain rfl : c = p.tree.size := context
  let made := p.tree.view.make p.tree.size rule
  let v := made.note p.tree.size fun x => { x with start := p.current? }
  have fresh : p.tree.view.face p.tree.size = none := ParseTree.face?_eq_none (Nat.le_refl _)
  have current := Parser.currentToken_of_placed sound.toPlaced
  refine laid.call v beyond fresh linked (fun c other => ?_) ?_ ?_
  · exact ⟨Function.update_of_ne other _ _,
      (Function.update_of_ne other _ _).trans (Function.update_of_ne other _ _)⟩
  · exact Function.update_self _ _ _
  · simp [v, made, View.make, View.note, current]

section

variable (build : u.options.buildTrees = true)

include build

/-- A plain edge that reads nothing. -/
theorem spanned_silent (number : Nat) (s : State) {t : Transition} (plain : t.Plain)
    (silent : t.accepts? u.grammar.network.maxToken = none) (h : p.Spanned u first count fs) :
    (takeEdge u number s t).Ensures p (fun _ p' => p'.Spanned u first count fs)
      fun e p' => ∀ error, e = .recoverable error → p'.Spanned u first count fs := by
  have basis := noted_basis (σ := σ) build p.tree.notes? p.matchedEof
  have ended : ∀ target, t ≠ .atom target Symbol.eof := by
    rintro target rfl
    cases silent
  have keeps := (basis.takeEdge_preserves number s plain
    fun target same => absurd same (ended target)).ensures ⟨h.begun, rfl, rfl⟩
  have crosses := takeEdge_ensures (u := u) h.begun.sound.toPlaced number s t
  refine (crosses.and keeps).imp ?_ ?_
  · rintro _ p' ⟨⟨leaves, crosses⟩, begun, kept⟩
    cases crosses with
    | plain | wrap | call => exact plain.elim
    | precedence => exact h
    | predicate acts | action acts => exact h.within build acts .nil begun kept
    | read accepts =>
        rw [silent] at accepts
        cases accepts
  · rintro e p' ⟨fails, begun, kept⟩
    exact h.of_fails build fails begun kept

/-- The current token is matched, or an error node is put. -/
theorem spanned_matchWhere (accept : Symbol → Bool) (h : p.Spanned u first count fs) :
    (matchWhere u accept).Ensures p
      (fun token p' =>
        p'.input.Begun ∧ p'.tree.notes? = p.tree.notes? ∧ p'.matchedEof = p.matchedEof ∧
        ∃ leaves, Acts u p p' leaves ∧ ((accept p.currentToken.type = true ∧
          token = p.currentToken ∧ leaves = [⟨p.currentToken, false⟩]) ∨
            ∃ l ∈ leaves, l.isError = true))
      fun e p' => ∀ error, e = .recoverable error → p'.Spanned u first count fs := by
  have basis := noted_basis (σ := σ) build p.tree.notes? p.matchedEof
  have keeps := (basis.matchWhere_preserves accept).ensures ⟨h.begun, rfl, rfl⟩
  have does := matchWhere_reads (u := u) h.begun.sound.toPlaced accept
  refine (Step.Ensures.and does keeps).imp ?_ ?_
  · rintro token p' ⟨⟨leaves, acts, reads⟩, begun, notes, matched⟩
    refine ⟨begun, notes, matched, leaves, acts, reads.imp_left ?_⟩
    rintro ⟨fits, rfl, rfl⟩
    exact ⟨fits, rfl, rfl⟩
  · rintro e p' ⟨fails, begun, kept⟩
    exact h.of_fails build fails begun kept

theorem spanned_takeEdge {number : Nat} {s : State} {t : Transition}
    (known : u.grammar.network.states[number]? = some s) (mem : t ∈ s.transitions) (plain : t.Plain)
    (here : p.context = some f.context) (h : p.Spanned u first count (f :: rest)) :
    (takeEdge u number s t).Ensures p (fun _ p' => p'.Spanned u first count (f :: rest))
      fun e p' => ∀ error, e = .recoverable error → p'.Spanned u first count (f :: rest) := by
  have reads {accept : Symbol → Bool} (accepts : t.accepts? u.grammar.network.maxToken = some accept)
      (other : ∀ target, t ≠ .atom target Symbol.eof) :
      (matchWhere u accept >>= fun _ => pure () : Parsing σ τ Unit).Ensures p
        (fun _ p' => p'.Spanned u first count (f :: rest))
        fun e p' => ∀ error, e = .recoverable error → p'.Spanned u first count (f :: rest) := by
    refine .bind ((spanned_matchWhere build accept h).imp ?_ fun _ _ => id)
    rintro token p' ⟨begun, notes, matched, leaves, acts, read⟩
    refine .of_ok rfl (h.read build here acts begun notes (read.imp_left ?_))
    rintro ⟨fits, -, rfl⟩
    refine ⟨rfl, fun eof => .inl (matched ▸ eof), fun plainly eof => ?_⟩
    rw [beq_iff_eq.1 eof] at fits
    have same := plainly s (Array.mem_of_getElem? known) t mem accept accepts fits
    exact absurd same (other t.target)
  -- Of the edges that read, only that for the type of the end of the input notes its match.
  cases t with
  | epsilon | call => exact plain.elim
  | range | set | notSet | wildcard => exact reads rfl (by simp)
  | predicate | precedence | action => exact spanned_silent build number s trivial rfl h
  | atom target label =>
      refine .bind (.bind ((spanned_matchWhere build (· == label) h).imp ?_ fun _ _ => id))
      rintro token p₁ ⟨begun, notes, matched, leaves, acts, read⟩
      split
      case isTrue eof =>
          obtain ⟨-, eof⟩ := Bool.and_eq_true_iff.1 eof
          refine .bind (.of_ok (a := ()) (t := { p₁ with matchedEof := true }) rfl ?_)
          refine .of_ok rfl (.of_ok rfl ?_)
          have acts := acts.trans matched_acts
          rw [List.append_nil] at acts
          refine h.read build here acts begun notes (read.imp_left ?_)
          rintro ⟨-, rfl, rfl⟩
          exact ⟨rfl, fun _ => .inr eof, fun _ _ => rfl⟩
      case isFalse more =>
          refine .of_ok rfl (.of_ok rfl (h.read build here acts begun notes (read.imp_left ?_)))
          rintro ⟨fits, rfl, rfl⟩
          refine ⟨rfl, fun eof => .inl (matched ▸ eof), fun _ eof => absurd ?_ more⟩
          rw [eof, ← beq_iff_eq.1 fits, Bool.and_true]
          exact eof

theorem spanned_follows (older : ∀ c ∈ ground.context, c < first) :
    Follows (σ := σ) u ground fun fs p => p.Spanned u first count fs where
  placed h := h.begun.sound.toPlaced
  settle state root h := by
    refine ⟨h.begun, h.counts, fun same => ?_⟩
    obtain ⟨active, e, all, laid, recalls⟩ := h.clean same
    exact ⟨active, e, all, laid, fun inside => (recalls inside).congr rfl rfl rfl⟩
  choose {p f rest} number s _ h := by
    have basis := noted_basis (σ := σ) build p.tree.notes? p.matchedEof
    have keeps := (basis.choose_preserves number s).ensures ⟨h.begun, rfl, rfl⟩
    have does := choose_does (u := u) (p := p) number s (R := True) trivial
    refine (Step.Ensures.and does keeps).imp ?_ ?_
    · rintro alt p' ⟨⟨leaves, acts, errors, -⟩, begun, kept⟩
      exact h.within build acts errors begun kept
    · rintro e p' ⟨fails, begun, kept⟩
      exact h.of_fails build fails begun kept
  cross known mem plain on h := spanned_takeEdge build known mem plain on.context_cons h
  abandon {p f rest} s error _ h := by
    have basis := noted_basis (σ := σ) build p.tree.notes? p.matchedEof
    have keeps := (basis.abandonRule_preserves s error).ensures ⟨h.begun, rfl, rfl⟩
    have abandons := abandonRule_ensures (u := u) (p := p) s error
    refine (abandons.and keeps).imp ?_ fun _ _ _ => trivial
    rintro _ p' ⟨⟨stop, leaves, -, acts, -, active⟩, begun, -⟩
    refine ⟨begun, Nat.le_trans h.counts acts.errors, fun same => ?_⟩
    have le := h.counts
    have more : p.errorCount ≤ p'.errorCount := acts.errors
    obtain ⟨quiet, -⟩ := h.clean (by omega)
    obtain ⟨quiet, -⟩ := acts.calm (show p'.errorCount = p.errorCount by omega) quiet
    rw [active] at quiet
    cases quiet
  call {p f rest} invoking rule start precedence on h := by
    have calls := enterCall_reshapes build h.begun.sound p.context invoking rule start precedence
    refine calls.imp (fun _ p' reshapes => ?_) fun _ _ => id
    refine .of_reshapes reshapes h.counts fun same => ?_
    obtain ⟨active, e, all, laid, recalls⟩ := h.clean same
    have called := laid_called (g := p.frame u invoking rule precedence) h.begun.sound laid laid.le_size
      rfl fun _ => on.context_cons
    exact ⟨active, e, all, called, fun _ => recalls (by simp)⟩
  wrap {p f rest} s recursive on h := by
    have wraps := continueRecursion_reshapes build s on.context_cons h.begun
    refine wraps.imp (fun _ p' reshapes => ?_) fun _ _ => id
    refine .of_reshapes reshapes h.counts fun same => ?_
    obtain ⟨active, e, all, laid, recalls⟩ := h.clean same
    have recalls := recalls (by simp)
    have fresh : p.tree.view.face p.tree.size = none := ParseTree.face?_eq_none (Nat.le_refl _)
    have other : f.context ≠ p.tree.size := laid.ne_of_fresh fresh f (.head _)
    rw [on.contextRule?, Option.getD_some]
    obtain ⟨e', laid⟩ := laid.wrap (recalls.stops_back h.begun recursive) recursive laid.le_size fresh
      (View.agrees_wrap f.rule _) (View.face_wrap f.rule _) (View.notes_wrap f.rule _ other)
    exact ⟨active, e', all, laid, fun _ => recalls⟩
  exit {p f rest} ordinary on h := by
    refine (exitRule_reshapes on.context_cons h.begun).imp (fun _ p' reshapes => ?_) fun _ _ => id
    refine .of_reshapes reshapes h.counts fun same => ?_
    obtain ⟨active, e, all, laid, recalls⟩ := h.clean same
    have recalls := recalls (by simp)
    obtain ⟨e', all', laid, rest?⟩ := laid.leave (recalls.stops_exit h.begun ordinary)
      on.stacked.parent_head ordinary
    exact ⟨active, e', all', laid, fun inside => rest? inside ▸ recalls⟩
  unwrap {p f rest} recursions recursive on h := by
    let q := { p with recursions }
    have unwraps := unwrapContexts_reshapes (p := q) build f.parent on.context_cons h.begun
    refine unwraps.imp (fun _ p' reshapes => ?_) fun _ _ => id
    refine .of_reshapes reshapes h.counts fun same => ?_
    obtain ⟨active, e, all, laid, recalls⟩ := h.clean same
    have recalls := recalls (by simp)
    obtain ⟨e', all', laid, rest?⟩ := laid.unwrap (recalls.stops_back h.begun recursive)
      on.stacked.parent_head older recursive
    exact ⟨active, e', all', laid, fun inside => rest? inside ▸ recalls.congr rfl rfl rfl⟩

/-- The parser enters the start rule. -/
theorem spanned_entered (sound : p.input.Sound) (unmatched : p.matchedEof = false)
    (calm : p.recovery.active = false) (rule start : Nat) :
    (enterCall u p.tree.size start rule 0).Ensures
      (({ p with root := some p.tree.size } : Parser σ τ).withContext none none rule)
      (fun _ q => q.Spanned u p.tree.size p.errorCount [p.startFrame u rule]) fun _ _ => True := by
  let q : Parser σ τ := { p with root := some p.tree.size }
  have enters := enterCall_reshapes (p := q) build sound none none rule start 0
  refine enters.imp (fun _ q' reshapes => ?_) fun _ _ _ => trivial
  have blank (c : NodeId) : ¬(q.tree.size ≤ c ∧ q.tree.view.face c ≠ none) :=
    fun known => known.2 (ParseTree.face?_eq_none known.1)
  have laid : Laid u.grammar.network q.tree.view q.tree.size (fun _ => none) (some q.currentToken) [] [] :=
    ⟨by simp [Layout.Holds], by simpa using blank, List.nodup_nil, .nil⟩
  have outermost (ordinary : u.grammar.network.isLeftRecursiveRule rule = false) :
      (p.startFrame u rule).parent = none := p.groundFor_context_of_ordinary ordinary
  have entered := laid_called (g := p.startFrame u rule) sound laid (Nat.le_refl _) rfl outermost
  have view : called u q (p.startFrame u rule).parent rule = called u q none rule := by
    unfold called
    split
    · rfl
    · rw [outermost (Bool.eq_false_iff.2 ‹_›)]
  refine .of_reshapes reshapes (Nat.le_refl _) fun _ => ⟨calm, _, [], view ▸ entered, fun _ => ?_⟩
  constructor
  case matched =>
    intro eof
    rw [show q.matchedEof = false from unmatched] at eof
    cases eof
  all_goals simp

end

end Parsing

namespace ParseTree

/-- The interval of the node goes from its first to its last leaf. -/
def Spans (t : ParseTree) (id : NodeId) (leaves : List Leaf) : Prop :=
  ∃ first ∈ leaves.head?, ∃ last ∈ leaves.getLast?, ∃ i j, first.token.index = some i ∧
    last.token.index = some j ∧ t.interval? id = some (i, j)

/-- The extent of a rule node with these leaves. Its interval is theirs, unless they end with the end
of the input: then that of a node of a left-recursive rule is not. -/
structure Extent (n : Network) (t : ParseTree) (id : NodeId) (node : RuleNode) (leaves : List Leaf) :
    Prop where
  start : ∀ l ∈ leaves.head?, node.start = some l.token
  spans : ∀ l ∈ leaves.getLast?, l.token.isEof = false ∨
    n.EndsPlainly ∧ n.isLeftRecursiveRule node.rule = false → t.Spans id leaves
  early : ∀ l ∈ leaves.getLast?, l.token.isEof = true → n.isLeftRecursiveRule node.rule = true →
    ¬ t.Spans id leaves

theorem interval?_eq_some {t : ParseTree} {id : NodeId} {node : RuleNode} {i j : Nat}
    (here : t.node? id = some (.rule node)) : t.interval? id = some (i, j) ↔
      node.start.bind Token.index = some i ∧ node.stop.bind Token.index = some j := by
  simp only [interval?, here, bind, Option.bind_some, Option.bind_eq_some_iff]
  constructor
  · rintro ⟨first, start, a, from?, last, stop, b, to?, same⟩
    cases same
    exact ⟨⟨first, start, from?⟩, last, stop, to?⟩
  · rintro ⟨⟨first, start, from?⟩, last, stop, to?⟩
    exact ⟨first, start, i, from?, last, stop, j, to?, rfl⟩

theorem extent_of_stops {n : Network} {t : ParseTree} {id : NodeId} {node : RuleNode}
    (here : t.node? id = some (.rule node)) (index : ∀ l ∈ leaves, l.token.index ≠ none)
    (start : ∀ l ∈ leaves.head?, node.start = some l.token)
    (stops : StopsBehind n node.rule node.stop leaves) :
    t.Extent n id node leaves where
  start := start
  spans l last known := by
    have ends : node.stop = some l.token := by
      refine (stops.last l last).resolve_right ?_
      rintro ⟨eof, overlooked⟩
      rcases known with more | ⟨plainly, ordinary⟩
      · rw [eof] at more
        cases more
      · rcases overlooked with recursive | other
        · rw [ordinary] at recursive
          cases recursive
        · exact other plainly
    have mem := List.mem_of_getLast? last
    obtain ⟨first, others, rfl⟩ := List.exists_cons_of_ne_nil (List.ne_nil_of_mem mem)
    obtain ⟨i, from?⟩ := Option.ne_none_iff_exists'.1 (index first (.head _))
    obtain ⟨j, to?⟩ := Option.ne_none_iff_exists'.1 (index l mem)
    refine ⟨first, rfl, l, last, i, j, from?, to?, (interval?_eq_some here).2 ?_⟩
    rw [start first rfl, ends]
    exact ⟨from?, to?⟩
  early l last eof recursive spans := by
    obtain ⟨-, -, l', last', i, j, -, to?, interval⟩ := spans
    cases last.symm.trans last'
    obtain ⟨-, ends⟩ := (interval?_eq_some here).1 interval
    obtain ⟨t, stop, ends⟩ := Option.bind_eq_some_iff.1 ends
    exact stops.early recursive l last eof t stop (ends.trans to?.symm)

end ParseTree

namespace Parsing

/-- If a parser for rules in EBNF makes no mistake, the interval of every new rule node goes from its
first to its last token, except at the end of the input. -/
theorem parse_spans {g : RuleSet} (built : g.build = .ok u.grammar.network) (settled : p.Settled)
    (unmatched : p.matchedEof = false) (calm : p.recovery.active = false)
    (build : u.options.buildTrees = true) (rule : Nat) :
    (parse u rule).Ensures p
      (fun _ p' => p'.errorCount = p.errorCount → ∀ id node, p.tree.size ≤ id →
        p'.tree.node? id = some (.rule node) →
          ∃ leaves, p'.tree.leaves? id = some leaves ∧ p'.tree.Extent u.grammar.network id node leaves)
      fun _ _ => True := by
  have confined := g.confined_of_build built
  have whole := parse_whole confined settled build rule
  have older := p.groundFor_context_lt (u := u) settled.inside rule
  have follows := (spanned_follows (σ := σ) build older).parse confined settled.inside
    fun start => spanned_entered build settled.1 unmatched calm rule start
  refine (whole.and follows).imp ?_ fun _ _ _ => trivial
  rintro root p' ⟨⟨leaves, made, -⟩, spanned⟩ same id node new here
  obtain ⟨-, e, all, laid, -⟩ := spanned.clean same
  obtain ⟨leaves, found, index, start, stops⟩ := laid.spans made.whole new here
  exact ⟨leaves, found, ParseTree.extent_of_stops here index start stops⟩

/-- A parser for sums and products, at the start of the tokens `1 + 2`. -/
theorem parse_spans_expression : ∃ n, Samples.expression.rules.build = .ok n ∧ n.EndsPlainly ∧
    let u : ParserSetup Unit := { grammar := { network := n, names := Samples.expression.names }, fuel := 100 }
    let tokens : TokenList := { tokens := #[{ type := 1 }, { type := 3 }, { type := 1 }] }
    let p : Parser TokenList Unit := .ofInput n (.ofNetwork n) { source := tokens } ()
    ∃ root p', (parse u 0).run p = (.ok root, p') ∧ p'.errorCount = 0 ∧
      ∀ id node, p'.tree.node? id = some (.rule node) →
        ∃ leaves, p'.tree.leaves? id = some leaves ∧ p'.tree.Extent n id node leaves := by
  let setup (n : Network) : ParserSetup Unit :=
    { grammar := { network := n, names := Samples.expression.names }, fuel := 100 }
  let tokens : TokenList := { tokens := #[{ type := 1 }, { type := 3 }, { type := 1 }] }
  let parser (n : Network) : Parser TokenList Unit := .ofInput n (.ofNetwork n) { source := tokens } ()
  have checks : Samples.expression.rules.build.toOption.any (fun n => n.EndsPlainly ∧
      ((parse (setup n) 0).run (parser n)).1 = .ok 0 ∧
      ((parse (setup n) 0).run (parser n)).2.errorCount = 0) = true := by
    decide +kernel
  cases built : Samples.expression.rules.build with
  | error e => simp [built, Except.toOption] at checks
  | ok n =>
      simp only [built, Except.toOption, Option.any_some, decide_eq_true_eq] at checks
      obtain ⟨plainly, outcome, errors⟩ := checks
      have ends : tokens.Ends := by simp [TokenList.Ends, tokens]
      have settled : (parser n).Settled := Parser.settled_ofInput (.ofSource (ends.prompt _)) ()
      have spans := parse_spans (u := setup n) built settled rfl rfl rfl 0
      have run : (parse (setup n) 0).run (parser n) = (.ok 0, ((parse (setup n) 0).run (parser n)).2) :=
        Prod.ext outcome rfl
      exact ⟨n, rfl, plainly, 0, _, run, errors, fun id node => spans.ok run errors id node (Nat.zero_le _)⟩

/-- `s : e ; e : A EOF | e B ;` -/
def closingRules : RuleSet where
  kind := .parser
  maxToken := 2
  rules := [
    { body := some (.ref 1 0) },
    { leftRecursive := true
      body := some (.leftRecursive [.sequence [.token 1, .token Symbol.eof]] [1] [.token 2]) }]

/-- For the token `A` the node of `e` has the end of the input as its last leaf, but its interval ends
before that. -/
theorem parse_closingRules : ∃ n, closingRules.build = .ok n ∧
    let u : ParserSetup Unit := { grammar := { network := n, names := {} }, fuel := 100 }
    let tokens : TokenList := { tokens := #[{ type := 1 }] }
    let p : Parser TokenList Unit := .ofInput n (.ofNetwork n) { source := tokens } ()
    ∃ root p', (parse u 0).run p = (.ok root, p') ∧ p'.errorCount = 0 ∧
      ∃ node leaves, p'.tree.rule? 1 = some node ∧ p'.tree.leaves? 1 = some leaves ∧
        leaves.map (fun l => l.token.index) = [some 0, some 1] ∧
        p'.tree.interval? 1 = some (0, 0) := by
  let setup (n : Network) : ParserSetup Unit := { grammar := { network := n, names := {} }, fuel := 100 }
  let tokens : TokenList := { tokens := #[{ type := 1 }] }
  let parser (n : Network) : Parser TokenList Unit := .ofInput n (.ofNetwork n) { source := tokens } ()
  have checks : closingRules.build.toOption.any (fun n =>
      let p' := ((parse (setup n) 0).run (parser n)).2
      ((parse (setup n) 0).run (parser n)).1 = .ok 0 ∧ p'.errorCount = 0 ∧
      (p'.tree.rule? 1).isSome ∧
      (p'.tree.leaves? 1).map (List.map fun l => l.token.index) = some [some 0, some 1] ∧
      p'.tree.interval? 1 = some (0, 0)) = true := by
    decide +kernel
  cases built : closingRules.build with
  | error e => simp [built, Except.toOption] at checks
  | ok n =>
      simp only [built, Except.toOption, Option.any_some, decide_eq_true_eq] at checks
      obtain ⟨outcome, errors, rule, tokens, interval⟩ := checks
      have run : (parse (setup n) 0).run (parser n) = (.ok 0, ((parse (setup n) 0).run (parser n)).2) :=
        Prod.ext outcome rfl
      obtain ⟨node, rule⟩ := Option.isSome_iff_exists.1 rule
      obtain ⟨leaves, below, indexes⟩ := Option.map_eq_some_iff.1 tokens
      exact ⟨n, rfl, 0, _, run, errors, node, leaves, rule, below, indexes, interval⟩

end Parsing

end AdaptiveLL
