import AdaptiveLL.Network.Assembly
/-!
Building networks from rules in EBNF. All rules are declared first, so that they can refer to
each other; then the body of each is built where the rule is defined. Programs that do this in
another order, or use a fragment outside of its rule, are not described here.

A left-recursive rule such as `e : e '*' e | e '+' e | INT` becomes
`e[p] : INT ( {3 >= p}? '*' e[4] | {2 >= p}? '+' e[3] )*`.
-/
namespace AdaptiveLL

/-- An element of the body of a rule. -/
inductive Element where
  | token (type : Symbol)
  | range (low high : Symbol)
  | set (labels : IntervalSet)
  | notSet (labels : IntervalSet)
  | wildcard
  /-- The characters of a text, one after the other. -/
  | literal (text : String)
  | empty
  | ref (rule : Nat) (precedence : Int)
  | predicate (index : Nat) (contextual : Bool)
  | precedence (level : Int)
  | action (index : Nat)
  | command (action : LexerAction)
  | sequence (elements : List Element)
  | alternatives (elements : List Element)
  | optional (greedy : Bool) (elements : List Element)
  | star (greedy : Bool) (elements : List Element)
  | plus (greedy : Bool) (elements : List Element)
  /-- The primaries of a left-recursive rule and its operator suffixes, whose precedences
  are listed apart. A suffix contains its own right operand. -/
  | leftRecursive (primaries : List Element) (levels : List Int) (suffixes : List Element)
  deriving Repr, Inhabited

/-- A piece of a network under construction. -/
structure Fragment where
  entry : Nat
  exit : Nat
  deriving DecidableEq, Repr, Inhabited

/-- A network under construction. -/
structure Builder where
  kind : GrammarKind
  maxToken : Symbol
  states : Array StatePlan := #[]
  ruleStarts : Array Nat := #[]
  ruleTokens : Array Symbol := #[]
  modes : Array Nat := #[]
  decisions : Array Nat := #[]
  actions : Array LexerAction := #[]
  /-- The rule to which new states belong. -/
  currentRule : Nat := 0
  deriving Repr, Inhabited

namespace Builder

def newState (b : Builder) (kind : StateKind) : Nat × Builder :=
  (b.states.size, { b with states := b.states.push { rule := b.currentRule, kind } })

def addTransition (b : Builder) (source : Nat) (t : Transition) : Builder :=
  { b with states := b.states.modify source fun s => { s with transitions := s.transitions ++ [t] } }

def addPlain (b : Builder) (source target : Nat) : Builder :=
  b.addTransition source (.plain target)

def addDecision (b : Builder) (state : Nat) : Builder :=
  { b with decisions := b.decisions.push state }

def setNonGreedy (b : Builder) (state : Nat) (nonGreedy : Bool) : Builder :=
  { b with states := b.states.modify state fun s => { s with nonGreedy } }

/-- Two states joined by an edge. -/
def edge (b : Builder) (t : Transition) : Fragment × Builder :=
  let (entry, b) := b.newState .basic
  let (exit, b) := b.newState .basic
  (⟨entry, exit⟩, b.addTransition entry (t.retarget exit))

def declare (b : Builder) (leftRecursive : Bool) (tokenType : Symbol) : Nat × Builder :=
  let rule := b.ruleStarts.size
  let (stop, b) := { b with currentRule := rule }.newState .ruleStop
  let (start, b) := b.newState (.ruleStart stop leftRecursive)
  (rule, { b with
    ruleStarts := b.ruleStarts.push start
    ruleTokens := b.ruleTokens.push tokenType })

/-- A lexer mode whose tokens are the given rules, tried in order. -/
def addMode (b : Builder) (rules : List Nat) : Builder :=
  let (start, b) := b.newState .tokensStart
  let b := b.addDecision start
  let starts := rules.filterMap (b.ruleStarts[·]?)
  let b := starts.foldl (fun b s => b.addPlain start s) b
  { b with modes := b.modes.push start }

/-- A call. One of an undeclared rule targets no state, which assembling refuses. -/
def ref (b : Builder) (rule : Nat) (precedence : Int) : Fragment × Builder :=
  let (entry, b) := b.newState .basic
  let (exit, b) := b.newState .basic
  let target := b.ruleStarts[rule]?.getD noState
  (⟨entry, exit⟩, b.addTransition entry (.call target rule precedence exit))

def empty (b : Builder) : Fragment × Builder :=
  let (entry, b) := b.newState .basic
  let (exit, b) := b.newState .basic
  (⟨entry, exit⟩, b.addPlain entry exit)

/-- The action that runs a command, which joins the table unless it is there already. -/
def command (b : Builder) (a : LexerAction) : Fragment × Builder :=
  match b.actions.findIdx? (· == a) with
  | some index => b.edge (.action 0 b.currentRule (some index) false)
  | none =>
      let index := b.actions.size
      { b with actions := b.actions.push a }.edge (.action 0 b.currentRule (some index) false)

/-- Join fragments from `exit` on; the answer is the exit of the last one. -/
def chain (b : Builder) (exit : Nat) : List Fragment → Nat × Builder
  | [] => (exit, b)
  | f :: rest => (b.addPlain exit f.entry).chain f.exit rest

def sequence (b : Builder) : List Fragment → Fragment × Builder
  | [] => b.empty
  | first :: rest =>
      let (exit, b) := b.chain first.exit rest
      (⟨first.entry, exit⟩, b)

/-- Lead from `start` into each fragment and from each fragment to `stop`. -/
def block (b : Builder) (start stop : Nat) (alts : List Fragment) : Builder :=
  alts.foldl (fun b f => (b.addPlain start f.entry).addPlain f.exit stop) b

/-- The two states around a block; a block of several alternatives is a decision. -/
def openBlock (b : Builder) (shape : BlockShape) (decides : Bool) : Nat × Nat × Builder :=
  let (stop, b) := b.newState .blockEnd
  let (start, b) := b.newState (.blockStart shape stop)
  (start, stop, if decides then b.addDecision start else b)

def alternatives (b : Builder) : List Fragment → Fragment × Builder
  | [f] => (f, b)
  | alts =>
      let (start, stop, b) := b.openBlock .choice (1 < alts.length)
      (⟨start, stop⟩, b.block start stop alts)

def optional (b : Builder) (greedy : Bool) (alts : List Fragment) : Fragment × Builder :=
  let (start, stop, b) := b.openBlock .choice true
  let b := b.block start stop alts
  let bypass := Transition.plain stop
  let states := b.states.modify start fun s =>
    { s with
      nonGreedy := !greedy
      transitions := if greedy then s.transitions ++ [bypass] else bypass :: s.transitions }
  (⟨start, stop⟩, { b with states })

/-- Two edges of a loop decision, in the order of its greediness. -/
def addBranches (b : Builder) (source : Nat) (greedy : Bool) (again leave : Nat) : Builder :=
  if greedy then (b.addPlain source again).addPlain source leave
  else (b.addPlain source leave).addPlain source again

def star (b : Builder) (greedy : Bool) (alts : List Fragment) : Fragment × Builder :=
  let (start, stop, b) := b.openBlock .star (1 < alts.length)
  let b := b.block start stop alts
  let (loopBack, b) := b.newState .starLoopBack
  let (entry, b) := b.newState .starLoopEntry
  let b := (b.setNonGreedy entry !greedy).addDecision entry
  let (exit, b) := b.newState (.loopEnd loopBack)
  let b := b.addBranches entry greedy start exit
  (⟨entry, exit⟩, (b.addPlain stop loopBack).addPlain loopBack entry)

def plus (b : Builder) (greedy : Bool) (alts : List Fragment) : Fragment × Builder :=
  let (start, stop, b) := b.openBlock .plus (1 < alts.length)
  let b := b.block start stop alts
  let (loopBack, b) := b.newState .plusLoopBack
  let b := (b.setNonGreedy loopBack !greedy).addDecision loopBack
  let (exit, b) := b.newState (.loopEnd loopBack)
  let b := b.addPlain stop loopBack
  (⟨start, exit⟩, b.addBranches loopBack greedy start exit)

/-- Put a precedence guard in front of each suffix. -/
def guard (b : Builder) : List (Int × Fragment) → List Fragment × Builder
  | [] => ([], b)
  | (level, suffix) :: rest =>
      let (check, b) := b.edge (.precedence 0 level)
      let (first, b) := b.sequence [check, suffix]
      let (others, b) := b.guard rest
      (first :: others, b)

def leftRecursive (b : Builder) (primaries : List Fragment) (suffixes : List (Int × Fragment)) :
    Fragment × Builder :=
  let (primary, b) := b.alternatives primaries
  let (guarded, b) := b.guard suffixes
  let (operators, b) := b.star true guarded
  b.sequence [primary, operators]

/-- The atoms of a text. -/
def atoms (b : Builder) : List Char → List Fragment × Builder
  | [] => ([], b)
  | c :: rest =>
      let (first, b) := b.edge (.atom 0 c.toNat)
      let (others, b) := b.atoms rest
      (first :: others, b)

mutual

/-- Build an element. The parts of an element are built before it, from left to right. -/
def element (b : Builder) : Element → Fragment × Builder
  | .token type => b.edge (.atom 0 type)
  | .range low high => b.edge (.range 0 low high)
  | .set labels => b.edge (.set 0 labels)
  | .notSet labels => b.edge (.notSet 0 labels)
  | .wildcard => b.edge (.wildcard 0)
  | .literal text =>
      let (parts, b) := b.atoms text.toList
      b.sequence parts
  | .empty => b.empty
  | .ref rule precedence => b.ref rule precedence
  | .predicate index contextual => b.edge (.predicate 0 b.currentRule index contextual)
  | .precedence level => b.edge (.precedence 0 level)
  | .action index => b.edge (.action 0 b.currentRule (some index) false)
  | .command a => b.command a
  | .sequence es =>
      let (parts, b) := b.elements es
      b.sequence parts
  | .alternatives es =>
      let (parts, b) := b.elements es
      b.alternatives parts
  | .optional greedy es =>
      let (parts, b) := b.elements es
      b.optional greedy parts
  | .star greedy es =>
      let (parts, b) := b.elements es
      b.star greedy parts
  | .plus greedy es =>
      let (parts, b) := b.elements es
      b.plus greedy parts
  | .leftRecursive primaries levels suffixes =>
      let (first, b) := b.elements primaries
      let (rest, b) := b.elements suffixes
      b.leftRecursive first (levels.zip rest)

/-- Build elements from left to right. -/
def elements (b : Builder) : List Element → List Fragment × Builder
  | [] => ([], b)
  | e :: rest =>
      let (first, b) := b.element e
      let (others, b) := b.elements rest
      (first :: others, b)

end

/-- Give a declared rule a body. Rules that are not declared are passed over. -/
def define (b : Builder) (rule : Nat) (body : Element) : Builder :=
  match b.ruleStarts[rule]? with
  | none => b
  | some start =>
      let (f, b) := { b with currentRule := rule }.element body
      match b.states[start]?.map StatePlan.kind with
      | some (.ruleStart stop _) => (b.addPlain start f.entry).addPlain f.exit stop
      | _ => b

/-- The first rule that has no body. -/
def undefinedRule? (b : Builder) : Option (Nat × Nat) :=
  b.ruleStarts.toList.findSome? fun start =>
    match b.states[start]? with
    | some s => if s.transitions.isEmpty then some (start, s.rule) else none
    | none => none

def blueprint (b : Builder) : Blueprint where
  maxToken := b.maxToken
  states := b.states.toList
  rules := b.ruleStarts.toList.mapIdx fun rule start =>
    { start, tokenType := if b.kind = .lexer then b.ruleTokens[rule]? else none }
  modes := b.modes.toList
  decisions := b.decisions.toList
  actions := b.actions.toList

def build (b : Builder) : Except NetworkError Network :=
  match b.undefinedRule? with
  | some (start, rule) => .error (.verification start (.undefinedRule rule))
  | none => Network.assemble b.kind b.blueprint

end Builder

/-- A declared rule: whether it is left-recursive, the type of its tokens in a lexer, and
its body, which may define another rule than its own. -/
structure RuleDecl where
  leftRecursive : Bool := false
  tokenType : Symbol := 0
  body : Option Element := none
  defines : Option Nat := none
  deriving Repr, Inhabited

/-- The rules and modes of a grammar in EBNF. -/
structure RuleSet where
  kind : GrammarKind
  maxToken : Symbol
  rules : List RuleDecl
  modes : List (List Nat) := []
  deriving Repr, Inhabited

/-- Declare every rule, define them in order, and add the modes. -/
def RuleSet.builder (g : RuleSet) : Builder :=
  let b : Builder := { kind := g.kind, maxToken := g.maxToken }
  let b := g.rules.foldl (fun b r => (b.declare r.leftRecursive r.tokenType).2) b
  let b := g.rules.zipIdx.foldl (fun b (r, i) =>
    match r.body with
    | some body => b.define (r.defines.getD i) body
    | none => b) b
  g.modes.foldl Builder.addMode b

def RuleSet.build (g : RuleSet) : Except NetworkError Network :=
  g.builder.build

end AdaptiveLL
