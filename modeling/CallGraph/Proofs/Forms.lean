import CallGraph.Key

/-!
# Forms of names and types

What a spelling means, without the letters of the code. A type is a row of layers, pointers,
references and constants, around a builtin type or a row of segments (`TypeForm`), and a name is the
row of its segments that are not empty (`NameForm`). A function without parameters takes nothing, as
one with the only parameter `void` does (`paramForms`). Spellings that differ by blanks, by `unsigned`
for `unsigned int` or by empty segments of a name have the same form.

Each form has its code, and the mangled name of a declaration is the code of its signature
(`Signature.mangle_eq_code`): whatever else is in the spellings is not in the key.
-/

namespace CallGraph

theorem Text.eq_of_pieces_eq_singleton {cs p : List Char} (h : pieces cs = [p]) : cs = p := by
  fun_induction pieces cs generalizing p with
  | case1 => exact (List.cons.inj h).1
  | case2 rest _ => exact absurd (List.cons.inj h).2 (pieces_ne_nil rest)
  | case3 c rest _ hnil _ => exact absurd hnil (pieces_ne_nil rest)
  | case4 c rest _ q qs hrest ih =>
      obtain ⟨rfl, rfl⟩ := List.cons.inj h
      rw [ih hrest]

/-- A row of names; one alone needs no brackets. -/
def Mangling.row : List (List Char) → List Char
  | [p] => counted p
  | ps => nest ps

open Mangling

/-! ## Forms of types -/

/-- What a type can be of another. -/
inductive Layer where
  | pointer
  | reference
  | constant
  deriving DecidableEq

inductive Builtin where
  | void
  | bool
  | char
  | signedChar
  | unsignedChar
  | short
  | unsignedShort
  | int
  | unsignedInt
  | long
  | unsignedLong
  | longLong
  | unsignedLongLong
  | float
  | double
  | ellipsis
  deriving DecidableEq

/-- A type without layers: a builtin one, or one that is known by the segments of its name. -/
inductive TypeBase where
  | builtin (b : Builtin)
  | named (segments : List (List Char))
  deriving DecidableEq

/-- A type: its layers from the outermost on, and what they are around. -/
structure TypeForm where
  layers : List Layer
  base : TypeBase
  deriving DecidableEq

namespace Layer

/-- The spelling without this layer, if it has it as its outermost one. -/
def strip? (spelling : List Char) : Layer → Option (List Char)
  | .pointer => if spelling.getLast? = some '*' then some spelling.dropLast else none
  | .reference => if spelling.getLast? = some '&' then some spelling.dropLast else none
  | .constant => if "const ".toList <+: spelling then some (spelling.drop 6) else none

/-- The outermost layer of a spelling and the spelling of the rest. What stands behind goes before
what stands in front. -/
def outermost? (spelling : List Char) : Option (Layer × List Char) :=
  [pointer, reference, constant].findSome? fun l => (l.strip? spelling).map (l, ·)

def letter : Layer → Char
  | .pointer => 'P'
  | .reference => 'R'
  | .constant => 'K'

theorem peel?_eq_outermost? (spelling : List Char) :
    Mangling.peel? spelling = (outermost? spelling).map fun x => (x.1.letter, x.2) := by
  unfold Mangling.peel? outermost?
  simp only [List.findSome?_cons, List.findSome?_nil, strip?]
  split
  next hlast => rw [if_pos hlast]; rfl
  next hlast =>
    rw [if_neg (by rw [hlast]; decide), if_pos hlast]
    rfl
  next hstar hamp =>
    rw [if_neg hstar, if_neg hamp]
    by_cases hconst : "const ".toList <+: spelling
    · rw [if_pos hconst, if_pos (List.isPrefixOf_iff_prefix.mpr hconst)]
      rfl
    · rw [if_neg hconst, if_neg (mt List.isPrefixOf_iff_prefix.mp hconst)]
      rfl

end Layer

namespace Builtin

/-- The builtin type of a spelling; `unsigned` alone is short for `unsigned int`. -/
def ofSpelling? : String → Option Builtin
  | "void" => some .void
  | "bool" => some .bool
  | "char" => some .char
  | "signed char" => some .signedChar
  | "unsigned char" => some .unsignedChar
  | "short" => some .short
  | "unsigned short" => some .unsignedShort
  | "int" => some .int
  | "unsigned" => some .unsignedInt
  | "unsigned int" => some .unsignedInt
  | "long" => some .long
  | "unsigned long" => some .unsignedLong
  | "long long" => some .longLong
  | "unsigned long long" => some .unsignedLongLong
  | "float" => some .float
  | "double" => some .double
  | "..." => some .ellipsis
  | _ => none

def letter : Builtin → Char
  | .void => 'v'
  | .bool => 'b'
  | .char => 'c'
  | .signedChar => 'a'
  | .unsignedChar => 'h'
  | .short => 's'
  | .unsignedShort => 't'
  | .int => 'i'
  | .unsignedInt => 'j'
  | .long => 'l'
  | .unsignedLong => 'm'
  | .longLong => 'x'
  | .unsignedLongLong => 'y'
  | .float => 'f'
  | .double => 'd'
  | .ellipsis => 'z'

theorem builtin?_eq_ofSpelling? (spelling : List Char) :
    Mangling.builtin? spelling = (ofSpelling? (String.ofList spelling)).map letter := by
  unfold Mangling.builtin?
  generalize String.ofList spelling = s
  split
  case h_18 =>
    unfold ofSpelling?
    split <;> first | rfl | contradiction
  all_goals rfl

end Builtin

namespace TypeBase

def ofSpelling (spelling : List Char) : TypeBase :=
  match Builtin.ofSpelling? (String.ofList spelling) with
  | some b => .builtin b
  | none => .named (Text.pieces spelling)

def code : TypeBase → List Char
  | .builtin b => [b.letter]
  | .named ps => row ps

theorem plainType_eq_code (spelling : List Char) :
    plainType spelling = (ofSpelling spelling).code := by
  unfold plainType ofSpelling
  rw [Builtin.builtin?_eq_ofSpelling?]
  cases Builtin.ofSpelling? (String.ofList spelling) with
  | some b => rfl
  | none =>
      cases hpieces : Text.pieces spelling with
      | nil => rfl
      | cons p ps =>
          cases ps with
          | nil =>
              obtain rfl := Text.eq_of_pieces_eq_singleton hpieces
              rfl
          | cons q qs => rfl

end TypeBase

namespace TypeForm

def wrap (l : Layer) (f : TypeForm) : TypeForm :=
  { f with layers := l :: f.layers }

/-- The form of a spelling: blanks at the ends are dropped and layers taken off until none is left. -/
def ofSpelling (spelling : List Char) : TypeForm :=
  match _h : Layer.outermost? (Text.trim spelling) with
  | some (l, rest) => (ofSpelling rest).wrap l
  | none => ⟨[], .ofSpelling (Text.trim spelling)⟩
termination_by spelling.length
decreasing_by
  have hpeel : Mangling.peel? (Text.trim spelling) = some (l.letter, rest) := by
    rw [Layer.peel?_eq_outermost?, _h]
    rfl
  have hrest := Mangling.length_lt_of_peel? hpeel
  have htrim := Text.length_trim_le spelling
  omega

def code (f : TypeForm) : List Char :=
  f.layers.map Layer.letter ++ f.base.code

theorem type_eq_code (spelling : List Char) : type spelling = (ofSpelling spelling).code := by
  fun_induction ofSpelling spelling with
  | case1 spelling l rest hout ih =>
      rw [type, Layer.peel?_eq_outermost?, hout]
      exact congrArg (l.letter :: ·) ih
  | case2 spelling hout =>
      rw [type, Layer.peel?_eq_outermost?, hout]
      exact TypeBase.plainType_eq_code _

end TypeForm

/-! ## Forms of names and of parameter lists -/

/-- A name by its segments that are not empty, or itself if it has none. -/
inductive NameForm where
  | segments (ps : List (List Char))
  | raw (name : List Char)
  deriving DecidableEq

namespace NameForm

def ofName (qualified : List Char) : NameForm :=
  match (Text.pieces qualified).filter fun p => !p.isEmpty with
  | [] => .raw qualified
  | ps => .segments ps

def code : NameForm → List Char
  | .segments ps => row ps
  | .raw n => counted n

theorem name_eq_code (qualified : List Char) :
    Mangling.name qualified = (ofName qualified).code := by
  unfold Mangling.name ofName
  cases (Text.pieces qualified).filter fun p => !p.isEmpty with
  | nil => rfl
  | cons p ps => cases ps <;> rfl

end NameForm

/-- The forms of the parameter types; a function without any takes nothing. -/
def paramForms (types : List String) : List TypeForm :=
  match types with
  | [] => [⟨[], .builtin .void⟩]
  | ts => ts.map fun t => .ofSpelling t.toList

theorem parameters_eq_flatMap_code (types : List String) :
    parameters types = (paramForms types).flatMap TypeForm.code := by
  cases types with
  | nil => rfl
  | cons t ts =>
      simp only [parameters, paramForms, List.isEmpty_cons, Bool.false_eq_true, if_false,
        List.flatMap_map, TypeForm.type_eq_code]

theorem paramForms_ne_nil (types : List String) : paramForms types ≠ [] := by
  cases types <;> simp [paramForms]

/-! ## Signatures -/

/-- What a mangled key tells of a declaration: its name and, for a function, its parameters. -/
structure Signature where
  name : NameForm
  params : Option (List TypeForm)
  deriving DecidableEq

namespace Signature

def of (qualified : String) (types : List String) (isFunction : Bool) : Signature where
  name := .ofName qualified.toList
  params := if isFunction then some (paramForms types) else none

def code (σ : Signature) : List Char :=
  ['_', 'Z'] ++ σ.name.code ++ (σ.params.getD []).flatMap TypeForm.code

theorem mangle_eq_code (qualified : String) (types : List String) (isFunction : Bool) :
    mangle qualified types isFunction = String.ofList (of qualified types isFunction).code := by
  unfold mangle code of
  rw [NameForm.name_eq_code]
  cases isFunction with
  | false => rfl
  | true => rw [if_pos rfl, parameters_eq_flatMap_code]; rfl

theorem of_eq_of_iff {n m : String} {ts us : List String} {f g : Bool} :
    of n ts f = of m us g ↔ NameForm.ofName n.toList = NameForm.ofName m.toList
      ∧ (f = false ∧ g = false ∨ f = true ∧ g = true ∧ paramForms ts = paramForms us) := by
  rw [of, of, mk.injEq]
  cases f <;> cases g <;> simp

end Signature

namespace Decl

/-- A declaration with a mangled key has a name, and the key is made from it and the parameters. -/
theorem exists_mangle_of_key {d : Decl} {s : String} (h : d.key = .mangled s) :
    ∃ n, d.displayName? = some n ∧ s = mangle n d.paramTypes d.kind.isFunction := by
  unfold key at h
  split at h
  · cases h
  · cases h
  · split at h
    · cases h
    · cases h
    next n _ hn =>
      split at h
      · cases h
      · exact ⟨n, hn, (Key.mangled.inj h).symm⟩

def nameForm? (d : Decl) : Option NameForm :=
  d.displayName?.map fun n => .ofName n.toList

end Decl

end CallGraph
