import AdaptiveLL.Network.Basic
import AdaptiveLL.Vocabulary
/-!
Grammars: a network with the names that messages and trees use.
-/
namespace AdaptiveLL

/-- Names attached to a grammar. -/
structure GrammarNames where
  grammar : String := ""
  rules : List String := []
  vocabulary : Vocabulary := {}
  channels : List String := []
  modes : List String := []
  deriving DecidableEq, Repr, Inhabited

namespace GrammarNames

def rule (names : GrammarNames) (index : Nat) : String :=
  names.rules[index]?.getD ("<rule " ++ toString index ++ ">")

def ruleIndex? (names : GrammarNames) (name : String) : Option Nat :=
  names.rules.findIdx? (· == name)

end GrammarNames

structure Grammar where
  network : Network
  names : GrammarNames
  deriving DecidableEq, Repr, Inhabited

end AdaptiveLL
