import CallGraph.Text.Printable

/-!
# Quoted text

How a message shows a text: between quotation marks, on one line, with every character that would
not be seen written by its code point.
-/

namespace CallGraph.Text

/-- One character inside quotation marks. -/
def quotedChar (c : Char) : String :=
  match c with
  | '\x00' => "\\0"
  | '\t' => "\\t"
  | '\r' => "\\r"
  | '\n' => "\\n"
  | '\\' => "\\\\"
  | '"' => "\\\""
  | c =>
    if isShown c then c.toString
    else "\\u\x7b" ++ String.ofList (Nat.toDigits 16 c.toNat) ++ "\x7d"

def quoted (s : String) : String :=
  "\"" ++ String.join (s.toList.map quotedChar) ++ "\""

end CallGraph.Text
