/-!
# Statements

The tree of a body. Only the shapes that matter for calls are told apart; every other statement or
expression is `other` with its parts. A block literal has no parts here: its body belongs to the
block's own declaration.
-/

namespace CallGraph

/-- The place of a declaration in its unit. -/
abbrev DeclId := UInt32

inductive Stmt where
  /-- A call: the function it is bound to, if that is known, the callee as written, and the
  arguments. -/
  | call (callee : Option DeclId) (target : Stmt) (args : List Stmt)
  /-- A message: the receiver's interface, if that is known, the selector, whether it goes to an
  instance or to the class, the receiver and the arguments. -/
  | messageSend (interface : Option DeclId) (selector : String) (toInstance : Bool)
      (receiver : Option Stmt) (args : List Stmt)
  | blockLiteral (decl : DeclId)
  | addrOf (operand : Stmt)
  | declRef (decl : DeclId)
  | paren (inner : Stmt)
  | implicitCast (inner : Stmt)
  | other (children : List Stmt)
  deriving Repr, BEq

namespace Stmt

instance : Inhabited Stmt := ⟨.other []⟩

/-- The parts of a statement, from left to right. -/
def children : Stmt → List Stmt
  | .call _ target args => target :: args
  | .messageSend _ _ _ receiver args => receiver.toList ++ args
  | .addrOf operand => [operand]
  | .paren inner => [inner]
  | .implicitCast inner => [inner]
  | .other children => children
  | .blockLiteral _ => []
  | .declRef _ => []

/-- The statement without the parentheses and implicit casts around it. -/
def stripped : Stmt → Stmt
  | .paren inner => inner.stripped
  | .implicitCast inner => inner.stripped
  | s => s

/-- The declaration that the statement itself names. -/
def reference? : Stmt → Option DeclId
  | .call callee _ _ => callee
  | .messageSend interface _ _ _ _ => interface
  | .blockLiteral decl => some decl
  | .declRef decl => some decl
  | .addrOf _ => none
  | .paren _ => none
  | .implicitCast _ => none
  | .other _ => none

mutual

/-- A statement and everything below it, a statement before its parts. -/
def preorder : Stmt → List Stmt
  | .call callee target args => .call callee target args :: (target.preorder ++ preorderAll args)
  | .messageSend interface selector toInstance receiver args =>
    .messageSend interface selector toInstance receiver args ::
      (preorderOption receiver ++ preorderAll args)
  | .blockLiteral decl => [.blockLiteral decl]
  | .addrOf operand => .addrOf operand :: operand.preorder
  | .declRef decl => [.declRef decl]
  | .paren inner => .paren inner :: inner.preorder
  | .implicitCast inner => .implicitCast inner :: inner.preorder
  | .other children => .other children :: preorderAll children

def preorderAll : List Stmt → List Stmt
  | [] => []
  | s :: ss => s.preorder ++ preorderAll ss

def preorderOption : Option Stmt → List Stmt
  | none => []
  | some s => s.preorder

end

theorem preorderAll_eq_flatMap (ss : List Stmt) : preorderAll ss = ss.flatMap preorder := by
  induction ss with
  | nil => rfl
  | cons s ss ih => simp [preorderAll, ih]

theorem preorderOption_eq_flatMap (s : Option Stmt) :
    preorderOption s = s.toList.flatMap preorder := by
  cases s <;> simp [preorderOption]

theorem preorder_eq_cons (s : Stmt) : s.preorder = s :: s.children.flatMap preorder := by
  cases s <;>
    simp [preorder, children, preorderAll_eq_flatMap, preorderOption_eq_flatMap]

/-! ## Common statements -/

/-- A call of a known function, named in the callee. -/
def directCall (callee : DeclId) (args : List Stmt) : Stmt :=
  .call (some callee) (.implicitCast (.declRef callee)) args

/-- A call through an expression. -/
def indirectCall (target : Stmt) (args : List Stmt) : Stmt :=
  .call none target args

/-- A block literal that is called where it stands. -/
def blockCall (block : DeclId) : Stmt :=
  indirectCall (.paren (.blockLiteral block)) []

/-- The address of a declaration. -/
def addressOf (decl : DeclId) : Stmt :=
  .addrOf (.declRef decl)

/-- A message without receiver and arguments. -/
def message (interface : DeclId) (selector : String) (toInstance : Bool) : Stmt :=
  .messageSend (some interface) selector toInstance none []

end Stmt

end CallGraph
