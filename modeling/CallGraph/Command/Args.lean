import CallGraph.Options

/-!
# Arguments

The arguments of the command: options, the path of a unit file, and what to do with the file. Options
start with two dashes; a value is the next argument or stands behind an equals sign, and no option
may be given twice on the same level. A word with a dash in front is never a value, except the dash
alone and whatever comes after `--`.
-/

namespace CallGraph.Command

/-- What to do with the graphs. -/
inductive Action where
  | dump
  | dot
  | json
  | stats
  | callees (name : String)
  | keys
  deriving Repr, DecidableEq

/-- A well-formed call of the command. -/
structure Invocation where
  path : String
  options : Options
  action : Action
  deriving Repr, DecidableEq

/-! ## Levels

The arguments before the name of an action and those behind it are two levels of the same form. -/

/-- What a level accepts. -/
structure Level where
  /-- Options with a value. -/
  valued : List String
  flags : List String
  /-- How many further arguments there may be. -/
  places : Nat
  /-- Words that end the level. -/
  actions : List String

/-- What a level holds. -/
structure Parsed where
  values : List (String × String) := []
  flags : List String := []
  places : List String := []
  /-- The word that ended the level, and what stands behind it. -/
  action : Option (String × List String) := none
  deriving Repr, DecidableEq

/-- The name of an option and the value behind its equals sign. -/
def splitOption (name : List Char) : String × Option String :=
  match name.dropWhile (· ≠ '=') with
  | [] => (String.ofList name, none)
  | _ :: value => (String.ofList (name.takeWhile (· ≠ '=')), some (String.ofList value))

namespace Level

/-- One more argument that is no option. -/
def place? (l : Level) (p : Parsed) (arg : String) : Option Parsed :=
  if p.places.length < l.places then some { p with places := p.places ++ [arg] } else none

/-- An option with a value. -/
def value? (p : Parsed) (name value : String) : Option Parsed :=
  if (p.values.lookup name).isSome then none
  else some { p with values := p.values ++ [(name, value)] }

def flag? (p : Parsed) (name : String) : Option Parsed :=
  if p.flags.contains name then none else some { p with flags := p.flags ++ [name] }

/-- Everything behind `--` is taken as it is. -/
def placeAll? (l : Level) (p : Parsed) : List String → Option Parsed
  | [] => some p
  | arg :: rest => do l.placeAll? (← l.place? p arg) rest

/-- Go through the arguments; `due` is the option whose value comes next. -/
def parse? (l : Level) (p : Parsed) (due : Option String) : List String → Option Parsed
  | [] => if due.isSome then none else some p
  | arg :: rest =>
    if due.isNone && l.actions.contains arg then some { p with action := some (arg, rest) }
    else
      match arg.toList, due with
      | ['-', '-'], none => l.placeAll? p rest
      | ['-', '-'], some _ => none
      | '-' :: '-' :: _, some _ => none
      | '-' :: '-' :: name, none =>
        match splitOption name with
        | (name, value) =>
          if l.valued.contains name then
            match value with
            | some value => do l.parse? (← value? p name value) none rest
            | none => l.parse? p (some name) rest
          else if l.flags.contains name && value.isNone then do
            l.parse? (← flag? p name) none rest
          else none
      | '-' :: _ :: _, _ => none
      | _, some name => do l.parse? (← value? p name arg) none rest
      | _, none => do l.parse? (← l.place? p arg) none rest

end Level

/-! ## The command -/

def logLevels : List String :=
  ["trace", "debug", "info", "warn", "error"]

/-- The level of the whole command. -/
def outer : Level where
  valued := ["log-level", "inline-prefix"]
  flags := ["no-fn-ptr-heuristic", "no-overrides"]
  places := 1
  actions := ["dump", "dot", "json", "stats", "callees", "keys"]

/-- The level behind the name of an action, which may be followed by `places` arguments. -/
def inner (places : Nat) : Level where
  valued := ["log-level"]
  flags := []
  places := places
  actions := []

/-- A level at which a log level is given has to give one that exists. -/
def hasGoodLogLevel (p : Parsed) : Bool :=
  (p.values.lookup "log-level").all logLevels.contains

/-- The action of a name, with the arguments of its level. -/
def action? (name : String) (args : List String) : Option Action := do
  let p ← (inner (if name = "callees" then 1 else 0)).parse? {} none args
  if !hasGoodLogLevel p then none
  match name, p.places with
  | "dump", [] => some .dump
  | "dot", [] => some .dot
  | "json", [] => some .json
  | "stats", [] => some .stats
  | "keys", [] => some .keys
  | "callees", [function] => some (.callees function)
  | _, _ => none

/-- The call that arguments make. The path may not be empty. -/
def Invocation.ofArgs? (args : List String) : Option Invocation := do
  let p ← outer.parse? {} none args
  if !hasGoodLogLevel p then none
  let (name, rest) ← p.action
  let action ← action? name rest
  let path ← p.places.head?
  if path.isEmpty then none
  let default : Options := {}
  return {
    path := path
    options :=
      { inlinePrefix := (p.values.lookup "inline-prefix").getD default.inlinePrefix
        functionPointers := !p.flags.contains "no-fn-ptr-heuristic"
        linkOverrides := !p.flags.contains "no-overrides" }
    action := action }

end CallGraph.Command
