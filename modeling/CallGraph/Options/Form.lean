import CallGraph.Json.Record
import CallGraph.Options

/-!
# The JSON form of options
-/

namespace CallGraph.Options

open Json in
def form : Json.Record Options where
  name := "GraphOptions"
  blank := {}
  fields :=
    [.optional "inline_prefix" asText fun x o => { o with inlinePrefix := x },
      .optional "function_pointer_heuristic" asFlag fun x o => { o with functionPointers := x },
      .optional "link_overrides" asFlag fun x o => { o with linkOverrides := x }]

def ofJson : Json → Json.Result Options :=
  form.decode

def toJson (o : Options) : Json :=
  .object
    [("inline_prefix", .str o.inlinePrefix),
      ("function_pointer_heuristic", .bool o.functionPointers),
      ("link_overrides", .bool o.linkOverrides)]

/-- Read options. -/
def read (text : String) : Json.Result Options :=
  Json.decodeText ofJson text

end CallGraph.Options
