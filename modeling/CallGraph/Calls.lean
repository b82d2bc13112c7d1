import CallGraph.Graph

/-!
# The calls of a body

Which calls a body makes depends on its unit and the options alone, not on the graph that they go into.
There are three sources: calls of a function, or of a block literal where it stands; messages whose
selector leads to a method; and, if the options say so, functions that are given the address of
another function and are taken to call it.
-/

namespace CallGraph

/-- A call between declarations. -/
structure Call where
  caller : DeclId
  callee : DeclId
  deriving Repr, DecidableEq

/-- The block literal that a call runs where it stands. -/
def Stmt.calledBlock? : Stmt → Option DeclId
  | .call none target _ =>
    match target.stripped with
    | .blockLiteral block => some block
    | _ => none
  | _ => none

/-- The function or block that a call runs. -/
def Stmt.callee? : Stmt → Option DeclId
  | .call (some callee) _ _ => some callee
  | s => s.calledBlock?

/-- The declaration whose address a statement takes. -/
def Stmt.address? : Stmt → Option DeclId
  | .addrOf (.declRef decl) => some decl
  | _ => none

def Stmt.isCall : Stmt → Bool
  | .call _ _ _ => true
  | _ => false

namespace SourceUnit

variable (u : SourceUnit) (o : Options)

def isFunction (id : DeclId) : Bool :=
  (u.decl? id).any fun d => d.kind.isFunction

/-- The method that a message leads to. -/
def sentTo? : Stmt → Option DeclId
  | .messageSend (some interface) selector toInstance _ _ =>
    u.lookup? interface selector toInstance
  | _ => none

/-- What a statement itself runs. -/
def runs? (s : Stmt) : Option DeclId :=
  s.callee?.or (u.sentTo? s)

/-- The functions whose addresses a statement passes to the function that it calls, as calls by the
latter. -/
def pointerCallsAt : Stmt → List Call
  | .call (some callee) _ args =>
    if o.functionPointers && u.isFunction callee && o.includesIn u callee then
      (args.filterMap Stmt.address?).filterMap fun id =>
        if u.isFunction id && o.includesIn u id then some ⟨callee, id⟩ else none
    else []
  | _ => []

/-- The calls that a statement itself makes inside the body of `owner`. -/
def callsAt (owner : DeclId) (s : Stmt) : List Call :=
  ((u.runs? s).filter (o.includesIn u)).toList.map (⟨owner, ·⟩) ++ u.pointerCallsAt o s

/-- The statements of a declaration's body, outer ones first. -/
def statements (id : DeclId) : List Stmt :=
  (((u.decl? id).bind Decl.body).map Stmt.preorder).getD []

/-- The calls that the body of a declaration makes, in the order of the text. -/
def callsOf (id : DeclId) : List Call :=
  (u.statements id).flatMap (u.callsAt o id)

def hasBody (id : DeclId) : Bool :=
  ((u.decl? id).bind Decl.body).isSome

/-- What is counted in the body of a declaration. -/
def statsOf (id : DeclId) : Stats :=
  if !u.hasBody id then {}
  else
    let body := u.statements id
    { bodiesWalked := 1
      callSites := body.countP Stmt.isCall
      blockCalls := body.countP fun s => s.calledBlock?.isSome
      messageCalls := body.countP fun s => (u.sentTo? s).isSome
      pointerCalls := (body.flatMap (u.pointerCallsAt o)).length }

/-! ## The bodies of a unit -/

/-- A block that may become a node. -/
def isBlock (id : DeclId) : Bool :=
  ((u.decl? id).any fun d => d.kind = .block) && o.includesIn u id

/-- The blocks among a declaration and all that lies inside it. -/
def blocksIn (id : DeclId) : List DeclId :=
  (u.childLinks.preorder [id]).filter (u.isBlock o)

/-- The declaration has a body of its own to go through; blocks come with what they lie in. -/
def isSwept (id : DeclId) : Bool :=
  ((u.decl? id).any fun d => d.kind.isCallable && d.kind ≠ .block) && o.includesIn u id

/-- The declarations of a unit whose bodies are gone through, in order: before each one the blocks
inside it. -/
def sweep : List DeclId :=
  (u.walk.filter (u.isSwept o)).flatMap fun id => u.blocksIn o id ++ [id]

end SourceUnit

end CallGraph
