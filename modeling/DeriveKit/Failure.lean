import DeriveKit.Config
import DeriveKit.Shape
import DeriveKit.Source

/-!
Everything that can go wrong, in one type.
-/
namespace DeriveKit

inductive Failure where
  | path (e : Path.Error)
  | source (e : Source.Error)
  | literal (e : Literal.Error)
  | unsupportedLiteral (e : Literal.Unsupported)
  | ident (e : Ident.Error)
  | typeExpr (e : TypeExpr.Error)
  /-- A reference without a referent cannot be written. -/
  | noReferent
  /-- An integer has too many digits to be written. -/
  | tooManyDigits
  | config (e : Config.Error)
  | abort (a : Abort)
  | noFieldList
  | unknownShape (name : String)
  | indexOutOfRange
  /-- Nothing stands at the index from which something is to be removed. -/
  | nothingToRemove
  | unknownView (name : String)

namespace Failure

def ofShape : ShapeError → Failure
  | .noFieldList => noFieldList
  | .abort a => abort a

/-- What is said about a failure, unless it has only a place. -/
def message? : Failure → Option String
  | path e => e.message
  | source e => e.message?
  | literal e => e.message?
  | unsupportedLiteral e => e.message
  | ident e => e.message
  | typeExpr e => e.message
  | noReferent => "tuple index out of range"
  | tooManyDigits => Text.digitLimitMessage ""
  | config e => e.message
  | abort a => a.message
  | noFieldList => "not a field list: None"
  | unknownShape name => Text.quoted name ++ " is not a valid FieldShape"
  | indexOutOfRange => "list index out of range"
  | nothingToRemove => "list assignment index out of range"
  | unknownView name => Text.quoted name

end Failure

end DeriveKit
