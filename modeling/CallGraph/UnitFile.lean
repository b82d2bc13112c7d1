import CallGraph.SourceUnit.Form

/-!
# Unit files

A unit file holds a list of units or one unit. It is read as a whole, then tried as a list and after
that as a unit, and at last every unit has to be valid.
-/

namespace CallGraph.UnitFile

/-- The units of a value that has been read ahead. -/
def ofJson (v : Json) : Json.Result (List SourceUnit) :=
  match v.fault? with
  | some f => .error (.fault f)
  | none =>
    match v.asList (SourceUnit.ofJson true) with
    | .ok us => .ok us
    | .error _ =>
      match SourceUnit.ofJson true v with
      | .ok u => .ok [u]
      | .error _ => .error .noUnits

/-- Why a text gives no units. -/
inductive ReadError where
  | json (e : Json.DecodeError)
  | invalid (index : Nat) (name : String) (e : UnitError)
  deriving Repr, DecidableEq

/-- The first unit that is not valid. -/
def invalid? (us : List SourceUnit) : Option ReadError :=
  us.zipIdx.findSome? fun (u, index) => u.error?.map (.invalid index u.name)

def read (text : String) : Except ReadError (List SourceUnit) :=
  match Json.decodeText ofJson text with
  | .error e => .error (.json e)
  | .ok us =>
    match invalid? us with
    | some e => .error e
    | none => .ok us

/-! ## Files -/

/-- What a path leads to. -/
inductive Content where
  | absent
  /-- There is something that cannot be read, for a reason the system gives. -/
  | unreadable (reason : String)
  | bytes (b : ByteArray)

/-- Why a file gives no units. -/
inductive LoadError where
  | absent
  | unreadable (reason : String)
  | notText
  | unread (e : ReadError)
  deriving Repr, DecidableEq

def load : Content → Except LoadError (List SourceUnit)
  | .absent => .error .absent
  | .unreadable reason => .error (.unreadable reason)
  | .bytes b =>
    match String.fromUTF8? b with
    | none => .error .notText
    | some text =>
      match read text with
      | .error e => .error (.unread e)
      | .ok us => .ok us

/-! ## Wording

An error is told as a row of causes, from what was wanted down to what went wrong. -/

/-- A cause; what is wrong with the JSON of a file is kept as such. -/
inductive Cause where
  | text (s : String)
  | json (e : Json.DecodeError)
  deriving Repr, DecidableEq

def Cause.message : Cause → String
  | .text s => s
  | .json e => e.message

def ReadError.causes : ReadError → List Cause
  | .json e => [.text "Failed to parse unit JSON", .json e]
  | .invalid index name e =>
    [.text (s!"Invalid translation unit #{index} (" ++ name ++ ")"), .text e.message]

def LoadError.causes (path : String) : LoadError → List Cause
  | .absent =>
    [.text ("Failed to read unit file: " ++ path), .text "No such file or directory (os error 2)"]
  | .unreadable reason => [.text ("Failed to read unit file: " ++ path), .text reason]
  | .notText =>
    [.text ("Failed to read unit file: " ++ path), .text "stream did not contain valid UTF-8"]
  | .unread e => .text ("Failed to load units from " ++ path) :: e.causes

/-- The causes as the whole program tells them. -/
def LoadError.allCauses (path : String) (e : LoadError) : List Cause :=
  .text ("Failed to build call graphs from " ++ path) :: e.causes path

end CallGraph.UnitFile
