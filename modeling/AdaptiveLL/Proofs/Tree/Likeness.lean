import AdaptiveLL.Proofs.Recognition.Likeness
import AdaptiveLL.Tree.Basic
/-!
Trees that differ in nothing but the numbers of stacks, which only the errors noted in their
contexts refer to. They have the same shape, and what is done to both leaves them alike.
-/
namespace AdaptiveLL

variable {R R' : Nat → Nat → Prop}

/-- Contexts that are the same, apart from the stacks of their errors. -/
def RuleNode.Like (R : Nat → Nat → Prop) (n n' : RuleNode) : Prop :=
  ∃ error, Option.Rel (RecognitionError.Like R) n.error error ∧ n' = { n with error }

inductive TreeNode.Like (R : Nat → Nat → Prop) : TreeNode → TreeNode → Prop
  | rule {n n' : RuleNode} (same : n.Like R n') : Like R (.rule n) (.rule n')
  | terminal (token : Token) (parent : Option NodeId) :
      Like R (.terminal token parent) (.terminal token parent)
  | error (token : Token) (parent : Option NodeId) : Like R (.error token parent) (.error token parent)

/-- Trees with the same nodes, apart from the stacks of their errors. -/
def ParseTree.Like (R : Nat → Nat → Prop) (t t' : ParseTree) : Prop :=
  List.Forall₂ (TreeNode.Like R) t.nodes.toList t'.nodes.toList

namespace TreeNode.Like

variable {x x' : TreeNode}

theorem imp (like : x.Like R x') (weaker : ∀ a b, R a b → R' a b) : x.Like R' x' := by
  cases like with
  | rule same =>
      obtain ⟨error, same, rfl⟩ := same
      exact .rule ⟨error, optionRel_imp same fun _ _ h => h.imp weaker, rfl⟩
  | terminal token parent => exact .terminal token parent
  | error token parent => exact .error token parent

theorem parent (like : x.Like R x') : x'.parent = x.parent := by
  cases like with
  | rule same =>
      obtain ⟨_, -, rfl⟩ := same
      rfl
  | terminal => rfl
  | error => rfl

theorem rule? (like : x.Like R x') : Option.Rel (RuleNode.Like R) x.rule? x'.rule? := by
  cases like with
  | rule same => exact .some same
  | terminal => exact .none
  | error => exact .none

theorem withParent (like : x.Like R x') (parent : Option NodeId) :
    (x.withParent parent).Like R (x'.withParent parent) := by
  cases like with
  | rule same =>
      obtain ⟨error, same, rfl⟩ := same
      exact .rule ⟨error, same, rfl⟩
  | terminal token => exact .terminal token parent
  | error token => exact .error token parent

theorem mapRule (like : x.Like R x') {f f' : RuleNode → RuleNode}
    (step : ∀ n n', RuleNode.Like R n n' → (f n).Like R (f' n')) :
    (x.mapRule f).Like R (x'.mapRule f') := by
  cases like with
  | rule same => exact .rule (step _ _ same)
  | terminal token parent => exact .terminal token parent
  | error token parent => exact .error token parent

end TreeNode.Like

namespace ParseTree.Like

variable {t t' : ParseTree}

theorem imp (like : t.Like R t') (weaker : ∀ a b, R a b → R' a b) : t.Like R' t' :=
  List.Forall₂.imp (fun _ _ same => same.imp weaker) like

theorem size (like : t.Like R t') : t'.size = t.size :=
  (List.Forall₂.length_eq like).symm

theorem node? (like : t.Like R t') (id : NodeId) :
    Option.Rel (TreeNode.Like R) (t.node? id) (t'.node? id) := by
  rw [ParseTree.node?, ParseTree.node?, ← Array.getElem?_toList, ← Array.getElem?_toList]
  exact forall₂_getElem? like id

theorem parent? (like : t.Like R t') (id : NodeId) : t'.parent? id = t.parent? id := by
  have here := like.node? id
  rw [ParseTree.parent?, ParseTree.parent?]
  generalize t.node? id = x, t'.node? id = x' at here
  cases here with
  | none => rfl
  | some here => exact here.parent

theorem rule? (like : t.Like R t') (id : NodeId) :
    Option.Rel (RuleNode.Like R) (t.rule? id) (t'.rule? id) := by
  have here := like.node? id
  rw [ParseTree.rule?, ParseTree.rule?]
  generalize t.node? id = x, t'.node? id = x' at here
  cases here with
  | none => exact .none
  | some here => exact here.rule?

/-- What does not look at errors is the same of both contexts. -/
theorem rule?_bind {α : Type} (like : t.Like R t') (id : NodeId) (f : RuleNode → Option α)
    (blind : ∀ n error, f { n with error } = f n) : (t'.rule? id).bind f = (t.rule? id).bind f := by
  have here := like.rule? id
  generalize t.rule? id = n, t'.rule? id = n' at here
  cases here with
  | none => rfl
  | some here =>
      obtain ⟨error, -, rfl⟩ := here
      exact blind _ error

theorem chain (like : t.Like R t') (node : Option NodeId) : t'.chain node = t.chain node := by
  have ancestors (fuel : Nat) (id : NodeId) : t'.ancestorsWithin fuel id = t.ancestorsWithin fuel id := by
    induction fuel generalizing id with
    | zero => rfl
    | succ fuel ih => simp only [ParseTree.ancestorsWithin, like.parent?, ih]
  cases node with
  | none => rfl
  | some id => simp only [ParseTree.chain, ParseTree.ancestors, like.size, ancestors]

/-- The calls that a context stands in. -/
theorem invokingStates (like : t.Like R t') (node : Option NodeId) :
    t'.invokingStates node = t.invokingStates node := by
  have invoking (id : NodeId) := like.rule?_bind id RuleNode.invoking fun _ _ => rfl
  simp only [ParseTree.invokingStates, like.chain, invoking]

theorem push (like : t.Like R t') {x x' : TreeNode} (same : x.Like R x') :
    (t'.push x').1 = (t.push x).1 ∧ (t.push x).2.Like R (t'.push x').2 := by
  refine ⟨like.size, ?_⟩
  simp only [ParseTree.push, ParseTree.Like, Array.toList_push]
  exact List.rel_append like (.cons same .nil)

theorem addRule (like : t.Like R t') (rule : Nat) (parent : Option NodeId) (invoking : Option Nat) :
    (t'.addRule rule parent invoking).1 = (t.addRule rule parent invoking).1 ∧
      (t.addRule rule parent invoking).2.Like R (t'.addRule rule parent invoking).2 :=
  like.push (.rule ⟨none, .none, rfl⟩)

theorem modifyRule (like : t.Like R t') (id : NodeId) {f f' : RuleNode → RuleNode}
    (step : ∀ n n', RuleNode.Like R n n' → (f n).Like R (f' n')) :
    (t.modifyRule id f).Like R (t'.modifyRule id f') := by
  simp only [ParseTree.modifyRule, ParseTree.Like, Array.toList_modify]
  exact forall₂_modify like (fun _ _ same => same.mapRule step) id

/-- A change of a context that does not touch its error. -/
theorem modifyBlind (like : t.Like R t') (id : NodeId) {f : RuleNode → RuleNode}
    (blind : ∀ n error, f { n with error } = { f n with error }) :
    (t.modifyRule id f).Like R (t'.modifyRule id f) := by
  refine like.modifyRule id ?_
  rintro n _ ⟨error, same, rfl⟩
  have kept : f n = { f n with error := n.error } := blind n n.error
  refine ⟨error, ?_, blind n error⟩
  rw [kept]
  exact same

/-- The same error, noted in a context. -/
theorem noteError (like : t.Like R t') (id : NodeId) {e e' : RecognitionError} (same : e.Like R e') :
    (t.modifyRule id fun node => { node with error := some e }).Like R
      (t'.modifyRule id fun node => { node with error := some e' }) := by
  refine like.modifyRule id ?_
  rintro n _ ⟨error, -, rfl⟩
  exact ⟨some e', .some same, rfl⟩

theorem addChild (like : t.Like R t') (parent child : NodeId) :
    (t.addChild parent child).Like R (t'.addChild parent child) :=
  like.modifyBlind parent fun _ _ => rfl

theorem addDetached (like : t.Like R t') (parent : NodeId) (token : Token) (isError : Bool) :
    (t'.addDetached parent token isError).1 = (t.addDetached parent token isError).1 ∧
      (t.addDetached parent token isError).2.Like R (t'.addDetached parent token isError).2 := by
  refine like.push ?_
  split
  · exact .error token (some parent)
  · exact .terminal token (some parent)

theorem addToken (like : t.Like R t') (parent : NodeId) (token : Token) (isError : Bool) :
    (t'.addToken parent token isError).1 = (t.addToken parent token isError).1 ∧
      (t.addToken parent token isError).2.Like R (t'.addToken parent token isError).2 := by
  obtain ⟨same, like⟩ := like.addDetached parent token isError
  refine ⟨same, ?_⟩
  simp only [ParseTree.addToken, same]
  exact like.addChild parent _

theorem setParent (like : t.Like R t') (id : NodeId) (parent : Option NodeId) :
    (t.setParent id parent).Like R (t'.setParent id parent) := by
  simp only [ParseTree.setParent, ParseTree.Like, Array.toList_modify]
  exact forall₂_modify like (fun _ _ same => same.withParent parent) id

theorem popChild (like : t.Like R t') (parent : NodeId) :
    (t.popChild parent).2.Like R (t'.popChild parent).2 := by
  have here := like.rule? parent
  rw [ParseTree.popChild, ParseTree.popChild]
  generalize t.rule? parent = n, t'.rule? parent = n' at here
  cases here with
  | none => exact like
  | some => exact like.modifyBlind parent fun _ _ => rfl

end ParseTree.Like

end AdaptiveLL
