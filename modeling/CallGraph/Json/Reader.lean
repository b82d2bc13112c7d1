import CallGraph.Json.Token

/-!
# Reading JSON text

The text is read token by token with the open containers on a stack, so the depth of a text costs no
recursion. Whatever the text holds the result is a `Json`: at the first token that cannot stand where
it stands, the containers that are still open are closed around the fault.

Containers may nest 127 deep; one that opens further in is marked.
-/

namespace CallGraph.Json

/-- The number of containers that may be open at a time. -/
def nestingLimit : Nat := 127

/-- An open container: what it holds so far, newest first, and the key of the value that is due. -/
inductive Frame where
  | arr (before : List Json)
  | obj (before : List (Except Fault String × Json)) (key : Except Fault String)

/-- A container inside the open ones of `stack`. Of these only as many are looked at as may be open. -/
def nested (stack : List Frame) (v : Json) : Json :=
  if (stack.drop (nestingLimit - 1)).isEmpty then v else .deep v

/-- Close the containers around a value behind which nothing can be read. -/
def enclose (v : Json) : List Frame → Json
  | [] => v
  | .arr before :: stack =>
    enclose (nested stack (.arr (Items.ofList (.item v .done) before.reverse))) stack
  | .obj before key :: stack =>
    enclose (nested stack (.obj (Members.ofList (.member key v .done) before.reverse))) stack

/-- An array that ends with `tail`, inside the open containers of `stack`. -/
def closeArr (before : List Json) (tail : Items) (stack : List Frame) : Json :=
  nested stack (.arr (Items.ofList tail before.reverse))

/-- An object that ends with `tail`, inside the open containers of `stack`. -/
def closeObj (before : List (Except Fault String × Json)) (tail : Members) (stack : List Frame) :
    Json :=
  nested stack (.obj (Members.ofList tail before.reverse))

/-- What is due next. In `items` and `members`, no entry before means that the container has just been
opened, so that it may be closed at once. -/
inductive Reader where
  | value (stack : List Frame)
  | items (before : List Json) (stack : List Frame)
  | members (before : List (Except Fault String × Json)) (stack : List Frame)
  | colon (before : List (Except Fault String × Json)) (key : Except Fault String)
      (stack : List Frame)
  /-- A value is complete; a comma, a closing bracket or the end is due. -/
  | after (v : Json) (stack : List Frame)
  /-- The rest of the text does not matter any more. -/
  | stopped (v : Json)
  /-- Something stands behind the outermost value. -/
  | trailing (v : Json)

namespace Reader

/-- Start a value inside `stack`. -/
def start (stack : List Frame) : Token → Reader
  | .openArr => .items [] stack
  | .openObj => .members [] stack
  | .literal l => .after l.value stack
  | .scalar v => .after v stack
  | .closeArr | .closeObj | .comma | .colon | .stray =>
    .stopped (enclose (.missing .noValue) stack)

def step : Reader → Token → Reader
  | .value stack, t => start stack t
  | .items [] stack, .closeArr => .after (Json.closeArr [] .done stack) stack
  | .items before stack, .closeArr =>
    .stopped (enclose (Json.closeArr before (.dangling .trailingComma) stack) stack)
  | .items before stack, t => start (.arr before :: stack) t
  | .members [] stack, .closeObj => .after (Json.closeObj [] .done stack) stack
  | .members before stack, .closeObj =>
    .stopped (enclose (Json.closeObj before (.dangling .trailingComma) stack) stack)
  | .members before stack, .literal (.whole s) => .colon before (.ok s) stack
  | .members before stack, .literal (.unpaired f) => .colon before (.error f) stack
  | .members before stack, .literal (.broken f g) =>
    .stopped (enclose (.missing g) (.obj before (.error f) :: stack))
  | .members [] stack, _ => .stopped (enclose (Json.closeObj [] (.stop .keyNotString) stack) stack)
  | .members before stack, _ =>
    .stopped (enclose (Json.closeObj before (.dangling .keyNotString) stack) stack)
  | .colon before key stack, .colon => .value (.obj before key :: stack)
  | .colon before key stack, _ =>
    .stopped (enclose (.missing .noColon) (.obj before key :: stack))
  | .after v (.arr before :: stack), .comma => .items (v :: before) stack
  | .after v (.arr before :: stack), .closeArr =>
    .after (Json.closeArr (v :: before) .done stack) stack
  | .after v (.arr before :: stack), _ =>
    .stopped (enclose (Json.closeArr (v :: before) (.stop .noListComma) stack) stack)
  | .after v (.obj before key :: stack), .comma => .members ((key, v) :: before) stack
  | .after v (.obj before key :: stack), .closeObj =>
    .after (Json.closeObj ((key, v) :: before) .done stack) stack
  | .after v (.obj before key :: stack), _ =>
    .stopped (enclose (Json.closeObj ((key, v) :: before) (.stop .noObjectComma) stack) stack)
  | .after v [], _ => .trailing v
  | .stopped v, _ => .stopped v
  | .trailing v, _ => .trailing v

def run (r : Reader) (cs : List Char) : Reader :=
  match _h : nextToken? cs with
  | none => r
  | some (t, rest) => run (r.step t) rest
termination_by cs.length
decreasing_by exact length_lt_of_nextToken? _h

/-- The value when the text ends. -/
def finish : Reader → Json
  | .value stack => enclose (.missing .endInValue) stack
  | .items [] stack => enclose (Json.closeArr [] (.stop .endInList) stack) stack
  | .items before stack => enclose (Json.closeArr before (.dangling .endInValue) stack) stack
  | .members [] stack => enclose (Json.closeObj [] (.stop .endInObject) stack) stack
  | .members before stack => enclose (Json.closeObj before (.dangling .endInValue) stack) stack
  | .colon before key stack => enclose (.missing .endInObject) (.obj before key :: stack)
  | .after v [] => v
  | .after v (.arr before :: stack) =>
    enclose (Json.closeArr (v :: before) (.stop .endInList) stack) stack
  | .after v (.obj before key :: stack) =>
    enclose (Json.closeObj ((key, v) :: before) (.stop .endInObject) stack) stack
  | .stopped v => v
  | .trailing v => v

end Reader

/-- A text that has been read: its outermost value, and whether something stands behind it. -/
structure Document where
  value : Json
  hasTrailing : Bool

def Document.ofChars (cs : List Char) : Document :=
  let r := (Reader.value []).run cs
  ⟨r.finish, match r with | .trailing _ => true | _ => false⟩

def Document.ofString (s : String) : Document :=
  Document.ofChars s.toList

end CallGraph.Json
