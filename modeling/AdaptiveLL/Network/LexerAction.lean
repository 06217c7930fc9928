import AdaptiveLL.Symbol
/-!
Lexer commands. A network keeps them in one table; a thread of the lexer collects those it
crosses, and the list of the winning thread runs once its token is accepted. A custom
command must see the input as it was where the command stands in the rule, so a list that
reads on first pins such commands to their distance from the start of the match.
-/
namespace AdaptiveLL

inductive LexerAction where
  | channel (channel : Nat)
  | custom (rule index : Nat)
  | mode (mode : Nat)
  | more
  | popMode
  | pushMode (mode : Nat)
  | skip
  | type (type : Symbol)
  /-- A command that runs at a distance from the start of the match. -/
  | pinned (offset : Nat) (action : LexerAction)
  deriving DecidableEq, Repr, Inhabited

namespace LexerAction

def isPinned : LexerAction → Bool
  | pinned .. => true
  | _ => false

def isPositionDependent : LexerAction → Bool
  | custom .. | pinned .. => true
  | _ => false

/-- Whether the command still has to be pinned before the thread reads on. -/
def isLoose (a : LexerAction) : Bool :=
  a.isPositionDependent && !a.isPinned

def pin (offset : Nat) (a : LexerAction) : LexerAction :=
  if a.isLoose then pinned offset a else a

end LexerAction

/-- The commands that a thread has crossed, in the order in which they run. -/
abbrev ActionList := List LexerAction

namespace ActionList

/-- Whether pinning leaves the list as it is. -/
def isFixed (actions : ActionList) : Bool :=
  !actions.any LexerAction.isLoose

/-- Pin the commands that are not pinned yet. -/
def pin (offset : Nat) (actions : ActionList) : ActionList :=
  actions.map (LexerAction.pin offset)

/-- The list of a thread that crosses one more command. -/
def push (actions : Option ActionList) (a : LexerAction) : ActionList :=
  actions.getD [] ++ [a]

end ActionList

end AdaptiveLL
