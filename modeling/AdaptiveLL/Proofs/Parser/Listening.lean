import AdaptiveLL.Proofs.Parser.Basis
import AdaptiveLL.Proofs.Parser.Calls
import AdaptiveLL.Proofs.Tree.Arrivals
import Mathlib.Data.List.Induction
/-!
What listeners have been told. A host keeps a record if each of its listeners notes the events that
it is told, and if nothing else touches the notes. Between two moves of a parser that enter or leave
rules, the record tells of exactly the nodes that have been made so far.
-/
namespace AdaptiveLL

/-- What listeners were told: the number of a listener and the event, one entry for each call. -/
abbrev Record := List (Nat × TreeEvent)

/-- What `count` listeners are told of an event. An exit reaches the last listener first. -/
def TreeEvent.deliveries (count : Nat) (e : TreeEvent) : Record :=
  if e.isExit then (List.range count).reverse.map (·, e) else (List.range count).map (·, e)

/-- The events that one listener was told. -/
def Record.received (record : Record) (listener : Nat) : List TreeEvent :=
  (record.filter (·.1 == listener)).map Prod.snd

namespace ParserHost

variable {τ : Type}

/-- The host with a record of what its listeners are told. -/
def recorded (h : ParserHost τ) : ParserHost (τ × Record) where
  predicate tree question host :=
    let (answer, host') := h.predicate tree question host.1
    (answer, host', host.2)
  action tree context rule index host := (h.action tree context rule index host.1, host.2)
  listeners := h.listeners.mapIdx fun i listener event tree host =>
    (listener event tree host.1, host.2 ++ [(i, event)])

/-- The host notes what its listeners are told, and nothing else. -/
structure Records (h : ParserHost (τ × Record)) : Prop where
  predicate (tree : ParseTree) (question : Question) (host : τ × Record) :
    (h.predicate tree question host).2.2 = host.2
  action (tree : ParseTree) (context : Option NodeId) (rule index : Nat) (host : τ × Record) :
    (h.action tree context rule index host).2 = host.2
  tell (event : TreeEvent) (tree : ParseTree) (host : τ × Record) :
    (h.listeners.foldl (fun host l => l event tree host) host).2 =
      host.2 ++ (List.range h.listeners.length).map (·, event)
  tellReversed (event : TreeEvent) (tree : ParseTree) (host : τ × Record) :
    (h.listeners.foldr (fun l host => l event tree host) host).2 =
      host.2 ++ (List.range h.listeners.length).reverse.map (·, event)

end ParserHost

def ParserSetup.recorded {τ : Type} (u : ParserSetup τ) : ParserSetup (τ × Record) where
  grammar := u.grammar
  options := u.options
  host := u.host.recorded
  fuel := u.fuel

theorem ParseTree.SameNews.attach (t : ParseTree) (build : Bool) (parent : Option NodeId)
    (id : NodeId) : SameNews t (t.attach build parent id) := by
  unfold ParseTree.attach
  split
  · exact .addChild _ _ _
  · exact .refl t

/-- The notes since `before` are about events after which `opened` are the nodes that are open. The
listeners have been told of the nodes from `first` on; what is `due` is yet to be told. -/
def Told (count : Nat) (before : Record) (first : Nat) (opened : List NodeId) (due : List TreeEvent)
    (tree : ParseTree) (record : Record) : Prop :=
  ∃ events : List TreeEvent, record = before ++ events.flatMap (TreeEvent.deliveries count) ∧
    events.filter (fun e => !e.isExit) ++ due = (tree.arrivals first).map Prod.fst ∧
    events.foldlM TreeEvent.open? [] = some opened

namespace Told

variable {count first : Nat} {before record : Record} {opened opened' : List NodeId}
  {due : List TreeEvent} {tree tree' : ParseTree} {e : TreeEvent}

theorem start (count : Nat) (tree : ParseTree) (record : Record) :
    Told count record tree.size [] [] tree record :=
  ⟨[], by simp, by simp, rfl⟩

/-- A change of the tree that makes no node. -/
theorem congr (h : Told count before first opened due tree record)
    (same : tree'.arrivals first = tree.arrivals first) :
    Told count before first opened due tree' record := by
  unfold Told
  rwa [same]

/-- A node is made. -/
theorem make (h : Told count before first opened due tree record) {token : Option Token}
    (made : tree'.arrivals first = tree.arrivals first ++ [(e, token)]) :
    Told count before first opened (due ++ [e]) tree' record := by
  obtain ⟨events, notes, arrived, nests⟩ := h
  refine ⟨events, notes, ?_, nests⟩
  rw [made, List.map_append, ← arrived, List.append_assoc, List.map_singleton]

/-- The listeners are told of a node that has been made. -/
theorem arrive (plain : e.isExit = false) (step : e.open? opened = some opened')
    (h : Told count before first opened (e :: due) tree record) :
    Told count before first opened' due tree (record ++ (List.range count).map (·, e)) := by
  obtain ⟨events, rfl, arrived, nests⟩ := h
  refine ⟨events ++ [e], by simp [TreeEvent.deliveries, plain], ?_, ?_⟩
  · rw [← arrived]
    simp [plain]
  · rw [List.foldlM_append, nests]
    simpa using step

/-- The listeners are told that the innermost node is exited. -/
theorem exit {id : NodeId} (h : Told count before first (id :: opened) due tree record) :
    Told count before first opened due tree
      (record ++ (List.range count).reverse.map (·, TreeEvent.exit id)) := by
  obtain ⟨events, rfl, arrived, nests⟩ := h
  refine ⟨events ++ [.exit id], by simp [TreeEvent.deliveries, TreeEvent.isExit], ?_, ?_⟩
  · rw [← arrived]
    simp [TreeEvent.isExit]
  · rw [List.foldlM_append, nests]
    simp [TreeEvent.open?]

end Told

namespace ParserHost.Records

variable {τ : Type} {h : ParserHost (τ × Record)} {before : Record} {first : Nat}
  {opened : List NodeId} {due : List TreeEvent} {tree : ParseTree} {host : τ × Record} {id : NodeId}

theorem enters (records : h.Records)
    (told : Told h.listeners.length before first opened (.enter id :: due) tree host.2) :
    Told h.listeners.length before first (id :: opened) due tree
      (h.listeners.foldl (fun host l => l (.enter id) tree host) host).2 := by
  rw [records.tell]
  exact told.arrive rfl rfl

theorem exits (records : h.Records)
    (told : Told h.listeners.length before first (id :: opened) due tree host.2) :
    Told h.listeners.length before first opened due tree
      (h.listeners.foldr (fun l host => l (.exit id) tree host) host).2 := by
  rw [records.tellReversed]
  exact told.exit

theorem visits (records : h.Records) {isError : Bool}
    (told : Told h.listeners.length before first opened
      ((if isError then .error id else .terminal id) :: due) tree host.2) :
    Told h.listeners.length before first opened due tree (h.listeners.foldl
      (fun host l => l (if isError then .error id else .terminal id) tree host) host).2 := by
  rw [records.tell]
  cases isError <;> exact told.arrive rfl rfl

end ParserHost.Records

section Quiet

variable {σ τ : Type} [TokenSource σ] {u : ParserSetup (τ × Record)} {opened : List NodeId}
  {due : List TreeEvent} {id : NodeId} {origin p p' : Parser σ (τ × Record)}

/-- Since a parse began as `origin`, the listeners have been told of every node that was made, except
for what is `due`, and `opened` are the nodes that are open. The tokens of the new nodes are those
that were consumed. -/
structure Parser.Recorded (u : ParserSetup (τ × Record)) (origin : Parser σ (τ × Record))
    (opened : List NodeId) (due : List TreeEvent) (p : Parser σ (τ × Record)) : Prop where
  grown : origin.tree.size ≤ p.tree.size
  told : Told u.host.listeners.length origin.simulation.host.2 origin.tree.size opened due p.tree
    p.simulation.host.2
  consumed : p.consumed.toList =
    origin.consumed.toList ++ (p.tree.arrivals origin.tree.size).filterMap Prod.snd

/-- Nothing is due, and the parser has begun to read its input. -/
structure Parser.Heard (u : ParserSetup (τ × Record)) (origin : Parser σ (τ × Record))
    (opened : List NodeId) (p : Parser σ (τ × Record)) : Prop
    extends Recorded u origin opened [] p where
  begun : p.input.Begun

namespace Parser

omit [TokenSource σ] in
theorem Recorded.start (u : ParserSetup (τ × Record)) (p : Parser σ (τ × Record)) :
    Recorded u p [] [] p where
  grown := Nat.le_refl _
  told := .start _ _ _
  consumed := by simp

omit [TokenSource σ] in
/-- A change that leaves the record and what was consumed, and makes no node. -/
theorem Recorded.congr (h : Recorded u origin opened due p)
    (record : p'.simulation.host.2 = p.simulation.host.2) (consumed : p'.consumed = p.consumed)
    (news : p.tree.SameNews p'.tree) : Recorded u origin opened due p' where
  grown := by
    rw [news.size]
    exact h.grown
  told := record ▸ h.told.congr news.arrivals
  consumed := by rw [consumed, news.arrivals, h.consumed]

omit [TokenSource σ] in
/-- A node is entered. -/
theorem Recorded.enters (h : Recorded u origin opened (.enter id :: due) p) (records : u.host.Records)
    (news : p.tree.SameNews p'.tree) (consumed : p'.consumed = p.consumed)
    (told : p'.simulation.host = u.host.listeners.foldl
      (fun host l => l (.enter id) p'.tree host) p.simulation.host) :
    Recorded u origin (id :: opened) due p' where
  grown := by
    rw [news.size]
    exact h.grown
  told := told ▸ records.enters (h.told.congr news.arrivals)
  consumed := by rw [consumed, news.arrivals, h.consumed]

omit [TokenSource σ] in
/-- The innermost open node is exited. -/
theorem Recorded.exits (h : Recorded u origin (id :: opened) due p) (records : u.host.Records)
    (news : p.tree.SameNews p'.tree) (consumed : p'.consumed = p.consumed)
    (told : p'.simulation.host = u.host.listeners.foldr
      (fun l host => l (.exit id) p'.tree host) p.simulation.host) :
    Recorded u origin opened due p' where
  grown := by
    rw [news.size]
    exact h.grown
  told := told ▸ records.exits (h.told.congr news.arrivals)
  consumed := by rw [consumed, news.arrivals, h.consumed]

/-- A change that leaves the input, the record, what was consumed and the tree. -/
theorem Heard.keep (h : Heard u origin opened p) (input : p'.input = p.input)
    (record : p'.simulation.host.2 = p.simulation.host.2) (consumed : p'.consumed = p.consumed)
    (tree : p'.tree = p.tree) : Heard u origin opened p' where
  toRecorded := h.toRecorded.congr record consumed (tree ▸ .refl _)
  begun := input ▸ h.begun

theorem Heard.withInput (h : Heard u origin opened p) {input : TokenStream σ}
    (begun : input.Begun) : Heard u origin opened (p.withInput input) :=
  ⟨⟨h.grown, h.told, h.consumed⟩, begun⟩

end Parser

open AdaptiveLL.Parser (Heard)

end Quiet

end AdaptiveLL
