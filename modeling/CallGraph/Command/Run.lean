import CallGraph.Command.Args
import CallGraph.Json.Printer
import CallGraph.Report
import CallGraph.UnitFile

/-!
# What the command prints
-/

namespace CallGraph.Command

/-- What a run of the command leaves behind. -/
structure Outcome where
  exit : Nat
  out : String
  err : String
  deriving Repr, DecidableEq

/-! ## Results -/

def line (s : String) : String :=
  s ++ "\n"

/-- A count under its title, at the right of eight columns. -/
def countLine (title : String) (n : Nat) : String :=
  let digits := toString n
  line (title ++ String.ofList (List.replicate (8 - digits.length) ' ') ++ digits)

def summaryText (s : Summary) : String :=
  String.join
    [line ("Unit: " ++ s.unit),
      line (String.ofList (List.replicate 60 '=')),
      countLine "  Nodes:                  " s.nodes,
      countLine "  Call edges:             " s.calls,
      countLine "  Override pairs:         " s.overridePairs,
      countLine "  Bodies walked:          " s.stats.bodiesWalked,
      countLine "  Call sites:             " s.stats.callSites,
      countLine "  Block call edges:       " s.stats.blockCalls,
      countLine "  Message call edges:     " s.stats.messageCalls,
      countLine "  Function pointer edges: " s.stats.pointerCalls,
      line ""]

/-- A list under its title; an empty one is left out. -/
def listText (title : String) (items : List String) : String :=
  if items.isEmpty then ""
  else line ("  " ++ title ++ ":") ++ String.join (items.map fun i => line ("    " ++ i))

def functionText (r : FunctionReport) : String :=
  String.join
    [line ("[" ++ r.unit ++ "] " ++ r.function),
      listText "calls" r.callees,
      listText "called by" r.callers,
      listText "overrides" r.overrides,
      listText "overridden by" r.overriddenBy,
      line ""]

def keyText (e : KeyEntry) : String :=
  line (e.unit ++ "\t" ++ e.key ++ "\t" ++ e.label)

/-- The text of an action. -/
def Action.text (a : Action) (gs : UnitGraphs) : Except QueryError String :=
  match a with
  | .dump => .ok gs.dump
  | .dot => .ok gs.dot
  | .json =>
    .ok (line (Json.object [("units", .array (gs.reports.map GraphReport.toJson))]).pretty)
  | .stats => .ok (String.join (gs.summaries.map summaryText))
  | .callees name => (gs.functionReports name).map fun rs => String.join (rs.map functionText)
  | .keys => .ok (String.join (gs.keyEntries.map keyText))

/-! ## Errors -/

/-- A message below its first line is indented by as much as its number takes. -/
def indent (first next message : String) : String :=
  first ++ ("\n" ++ next).intercalate (message.splitOn "\n")

/-- The causes of an error, numbered if there are several. -/
def causeLines : List String → List String
  | [] => []
  | [m] => [indent "    " "    " m]
  | ms =>
    ms.zipIdx.map fun (m, n) =>
      let digits := toString n
      indent (String.ofList (List.replicate (5 - digits.length) ' ') ++ digits ++ ": ") "       " m

/-- An error and its causes, from what was wanted down to what went wrong. -/
def errorText : List String → String
  | [] => ""
  | [m] => line ("Error: " ++ m)
  | m :: causes =>
    line ("Error: " ++ m) ++ line "" ++ line "Caused by:" ++
      String.join ((causeLines causes).map line)

/-! ## Runs -/

/-- Run a well-formed call on what its path leads to. -/
def Invocation.run (i : Invocation) (content : UnitFile.Content) : Outcome :=
  match UnitFile.load content with
  | .error e => ⟨1, "", errorText ((e.allCauses i.path).map UnitFile.Cause.message)⟩
  | .ok us =>
    match i.action.text (.build i.options us) with
    | .error e => ⟨1, "", errorText [e.message]⟩
    | .ok s => ⟨0, s, ""⟩

/-- The outcome of a call that is not well formed. -/
def misuse : Outcome :=
  ⟨2, "", line "error: invalid arguments"⟩

/-- Run the command in a world of files. -/
def run (files : String → UnitFile.Content) (args : List String) : Outcome :=
  match Invocation.ofArgs? args with
  | none => misuse
  | some i => i.run (files i.path)

end CallGraph.Command
