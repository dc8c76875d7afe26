import DeriveKit.Path
import DeriveKit.Datum

/-!
Settings shared by the helpers, and how they are read from plain data.

Keys that are not known are refused first, then a derive path that is no path, then an unknown tag
rule, then a separator that is nothing. Data of another type than text is kept as it is.
-/
namespace DeriveKit

/-- Which entries count as a tag. -/
inductive TagMatch where
  /-- Bare (`tag`), with parameters (`tag(..)`) or with a value (`tag = ..`). -/
  | anyEntry
  /-- With parameters only. -/
  | listOnly
deriving DecidableEq, Repr

structure Config where
  /-- The attribute that lists derives. -/
  derivePath : Path
  /-- What stands between the segments of a path in messages. -/
  separator : String
  tagMatch : TagMatch
deriving DecidableEq, Repr

namespace Config

inductive Error where
  | unknownKeys (keys : List String)
  | derivePath (e : Path.Error)
  | tagMatch (text : String)
  | separator
deriving DecidableEq, Repr

def Error.message : Error → String
  | unknownKeys keys => "unknown config keys: " ++ ", ".intercalate keys
  | derivePath e => e.message
  | tagMatch text => Text.quoted text ++ " is not a valid TagMatch"
  | separator => "path_separator must be non-empty"

def default : Config where
  derivePath := .single ⟨"derive", by decide⟩
  separator := "::"
  tagMatch := .anyEntry

end Config

namespace TagMatch

def name : TagMatch → String
  | anyEntry => "any_entry"
  | listOnly => "list_only"

def ofName? : String → Option TagMatch
  | "any_entry" => some anyEntry
  | "list_only" => some listOnly
  | _ => none

end TagMatch

/-- A setting that was understood, or data kept as it is. -/
inductive Setting (α : Type) where
  | known (a : α)
  | raw (d : Datum)
deriving Repr

def Setting.getD {α : Type} (s : Setting α) (other : α) : α :=
  match s with
  | known a => a
  | raw _ => other

/-- Settings as they were given. -/
structure Settings where
  derivePath : Setting Path
  separator : Setting String
  tagMatch : Setting TagMatch
deriving Repr

namespace Settings

def knownKeys : List String := ["derive_path", "path_separator", "tag_match"]

def readDerivePath : Option Datum → Except Config.Error (Setting Path)
  | none => .ok (.known Config.default.derivePath)
  | some (.text s) => ((Path.parse s).map .known).mapError .derivePath
  | some d => .ok (.raw d)

def readTagMatch : Option Datum → Except Config.Error (Setting TagMatch)
  | none => .ok (.known Config.default.tagMatch)
  | some (.text s) =>
    match TagMatch.ofName? s with
    | some rule => .ok (.known rule)
    | none => .error (.tagMatch s)
  | some d => .ok (.raw d)

def readSeparator : Option Datum → Except Config.Error (Setting String)
  | none => .ok (.known Config.default.separator)
  | some d =>
    if d.isNothing then .error .separator
    else
      match d with
      | .text s => .ok (.known s)
      | d => .ok (.raw d)

/-- The keys of `rows` that are no settings, in order of their characters. -/
def unknownKeys (rows : List (String × Datum)) : List String :=
  ((rows.map (·.1)).filter fun key => !knownKeys.contains key).mergeSort fun a b => !(b < a)

def ofRows (rows : List (String × Datum)) : Except Config.Error Settings := do
  let unknown := unknownKeys rows
  if !unknown.isEmpty then throw (.unknownKeys unknown)
  let derivePath ← readDerivePath (rows.lookup "derive_path")
  let tagMatch ← readTagMatch (rows.lookup "tag_match")
  let separator ← readSeparator (rows.lookup "path_separator")
  return { derivePath, separator, tagMatch }

/-- The settings in force. Data that was kept as it is has no meaning to the helpers. -/
def config (s : Settings) : Config where
  derivePath := s.derivePath.getD Config.default.derivePath
  separator := s.separator.getD Config.default.separator
  tagMatch := s.tagMatch.getD Config.default.tagMatch

end Settings

end DeriveKit
