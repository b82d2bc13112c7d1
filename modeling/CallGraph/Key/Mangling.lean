import CallGraph.Text.Blank
import CallGraph.Text.Bytes
import CallGraph.Text.Pieces

/-!
# Mangled names

A mangled name is one word for a qualified name and, for a function, its parameter types. Every part
of a name is written after the number of its bytes, so that the parts can be told apart whatever they
hold; a row of several parts stands between `N` and `E`. Builtin types have a letter each, and
pointers, references and constants a letter before the type they are made from.
-/

namespace CallGraph

namespace Mangling

/-- A name after the number of its bytes. -/
def counted (name : List Char) : List Char :=
  (toString (Text.byteLength name)).toList ++ name

/-- A row of names in its brackets. -/
def nest (names : List (List Char)) : List Char :=
  'N' :: names.flatMap counted ++ ['E']

/-- The parts of a qualified name that are not empty, bracketed if there are several. A name without
any such part stands for itself. -/
def name (qualified : List Char) : List Char :=
  match (Text.pieces qualified).filter fun p => !p.isEmpty with
  | [] => counted qualified
  | [p] => counted p
  | ps => nest ps

/-- The letter of a builtin type. -/
def builtin? (spelling : List Char) : Option Char :=
  match String.ofList spelling with
  | "void" => some 'v'
  | "bool" => some 'b'
  | "char" => some 'c'
  | "signed char" => some 'a'
  | "unsigned char" => some 'h'
  | "short" => some 's'
  | "unsigned short" => some 't'
  | "int" => some 'i'
  | "unsigned" => some 'j'
  | "unsigned int" => some 'j'
  | "long" => some 'l'
  | "unsigned long" => some 'm'
  | "long long" => some 'x'
  | "unsigned long long" => some 'y'
  | "float" => some 'f'
  | "double" => some 'd'
  | "..." => some 'z'
  | _ => none

/-- A type that is no pointer, reference or constant of another. Here empty pieces count. -/
def plainType (spelling : List Char) : List Char :=
  match builtin? spelling with
  | some c => [c]
  | none =>
    match Text.pieces spelling with
    | [_] => counted spelling
    | ps => nest ps

/-- What is outermost about a type: the letter for it and the spelling of the rest. -/
def peel? (spelling : List Char) : Option (Char × List Char) :=
  match spelling.getLast? with
  | some '*' => some ('P', spelling.dropLast)
  | some '&' => some ('R', spelling.dropLast)
  | _ =>
    if "const ".toList.isPrefixOf spelling then some ('K', spelling.drop 6)
    else none

theorem length_lt_of_peel? {spelling rest : List Char} {c : Char}
    (h : peel? spelling = some (c, rest)) : rest.length < spelling.length := by
  unfold peel? at h
  split at h
  next he =>
    have : spelling ≠ [] := by rintro rfl; simp at he
    have := List.length_pos_iff.2 this
    simp only [Option.some.injEq, Prod.mk.injEq] at h
    rw [← h.2, List.length_dropLast]
    omega
  next he =>
    have : spelling ≠ [] := by rintro rfl; simp at he
    have := List.length_pos_iff.2 this
    simp only [Option.some.injEq, Prod.mk.injEq] at h
    rw [← h.2, List.length_dropLast]
    omega
  next =>
    split at h
    next hp =>
      have := (List.isPrefixOf_iff_prefix.1 hp).length_le
      simp only [Option.some.injEq, Prod.mk.injEq] at h
      simp at this
      rw [← h.2, List.length_drop]
      omega
    next => cases h

/-- A type as it is spelled, blanks around it and around what is left of it apart. -/
def type (spelling : List Char) : List Char :=
  match _h : peel? (Text.trim spelling) with
  | some (c, rest) => c :: type rest
  | none => plainType (Text.trim spelling)
termination_by spelling.length
decreasing_by
  have h₁ := length_lt_of_peel? _h
  have h₂ := Text.length_trim_le spelling
  omega

/-- The parameter types; a function without any takes nothing. -/
def parameters (types : List String) : List Char :=
  if types.isEmpty then ['v'] else types.flatMap fun t => type t.toList

end Mangling

/-- The mangled name of something with this qualified name; a function's parameters are part of it. -/
def mangle (qualified : String) (types : List String) (isFunction : Bool) : String :=
  String.ofList <|
    ['_', 'Z'] ++ Mangling.name qualified.toList ++
      if isFunction then Mangling.parameters types else []

end CallGraph
