import DeriveKit.Binary64

/-!
Plain data: what a host hands over before it is known to be a name, a literal or a setting; and
identifiers, which are joined from such data.
-/
namespace DeriveKit

inductive Datum where
  | null
  | flag (b : Bool)
  | int (n : Int)
  | real (x : Binary64)
  | text (s : String)
  | ident (name : String)
  | list (items : List Datum)
  | table (rows : List (String × Datum))
deriving Repr

namespace Datum

mutual
/-- The data as messages show it, unless there is an integer of too many digits in it. -/
def display? : Datum → Option String
  | null => some "None"
  | flag b => some (if b then "True" else "False")
  | int n => Text.signedDecimal? n
  | real x => some x.render
  | text s => some (Text.quoted s)
  | ident name => some ("Ident(name=" ++ Text.quoted name ++ ")")
  | list items => (displayItems? items).map fun shown => "[" ++ ", ".intercalate shown ++ "]"
  | table rows => (displayRows? rows).map fun shown => "\x7b" ++ ", ".intercalate shown ++ "\x7d"

def displayItems? : List Datum → Option (List String)
  | [] => some []
  | d :: ds => do
    let shown ← d.display?
    let more ← displayItems? ds
    return shown :: more

def displayRows? : List (String × Datum) → Option (List String)
  | [] => some []
  | (key, d) :: rows => do
    let shown ← d.display?
    let more ← displayRows? rows
    return (Text.quoted key ++ ": " ++ shown) :: more
end

/-- Whether the data counts as nothing: null, zero, false, or empty. -/
def isNothing : Datum → Bool
  | null => true
  | flag b => !b
  | int n => n == 0
  | real x => x.same (.zero false)
  | text s => s.isEmpty
  | ident _ => false
  | list items => items.isEmpty
  | table rows => rows.isEmpty

end Datum

namespace Ident

/-! ## Identifiers

They are made by joining fragments. Nothing is checked and no letter changes case. -/

/-- Why data cannot be part of an identifier. -/
inductive Error where
  | flag
  /-- Data of another kind, as messages show it. -/
  | unsupported (shown : String)
  | tooManyDigits

def Error.message : Error → String
  | flag => "bool is not an identifier fragment"
  | unsupported shown => "Unsupported identifier fragment: " ++ shown
  | tooManyDigits => Text.digitLimitMessage ""

/-- Texts, integers and identifiers are fragments. -/
def fragment : Datum → Except Error String
  | .ident name => .ok name
  | .flag _ => .error .flag
  | .text s => .ok s
  | .int n =>
    match Text.signedDecimal? n with
    | some digits => .ok digits
    | none => .error .tooManyDigits
  | d =>
    match d.display? with
    | some shown => .error (.unsupported shown)
    | none => .error .tooManyDigits

def concat (left right : String) : String := left ++ right

/-- The name followed by a fragment. -/
def append (name : String) (d : Datum) : Except Error String := (fragment d).map (concat name)

/-- The name preceded by a fragment. -/
def prepend (name : String) (d : Datum) : Except Error String :=
  (fragment d).map fun front => concat front name

end Ident

end DeriveKit
