import DeriveKit.Lookup
import DeriveKit.Failure

/-!
Adding to the list of derives.

A helper that provides a capability also lists it among the derives of the declaration. Requests
that are listed already are refused, all of them named if they can be, and then nothing changes.
-/
namespace DeriveKit.Derive

/-- A derive to be listed: an entry, or the text of a path. -/
inductive Request where
  | entry (e : Entry)
  | text (s : String)

def Request.read : Request → Except Path.Error Entry
  | entry e => .ok e
  | text s => (Path.parse s).map .path

/-- The entries of all requests, or the first text that is no path. -/
def readAll : List Request → Except Path.Error (List Entry)
  | [] => .ok []
  | r :: rs => do
    let e ← r.read
    let es ← readAll rs
    return e :: es

/-- How a derive is called in messages, unless it is an integer of too many digits. -/
def format? (config : Config) (e : Entry) : Option String :=
  match e with
  | .path p | .list p _ | .keyValue p _ => some (p.renderWith config.separator)
  | .literal value => value.render?

/-- How derives are called, unless one of them cannot be. -/
def formatAll? (config : Config) : List Entry → Option (List String)
  | [] => some []
  | e :: es => do
    let name ← format? config e
    let names ← formatAll? config es
    return name :: names

/-- Why entries that are listed already are refused. -/
def refusal (config : Config) (overlap : List Entry) (loc : Option Position) : Failure :=
  match formatAll? config overlap with
  | some names => .abort ⟨.derivesListed names, loc⟩
  | none => .tooManyDigits

/-- The first derive list of a declaration: its index, the attribute and its entries. -/
def findList (config : Config) (attrs : List Attribute) :
    Logged (Option (Nat × Attribute × List Entry)) :=
  Lookup.first (fun a m => (Lookup.listIn? config.derivePath a m).map (a, ·)) attrs

/-- Appends entries to the first derive list, or appends a list of them as a new attribute. -/
def mergeEntries (config : Config) (wanted : List Entry) (d : Declaration) :
    Logged (Except Failure Declaration) := do
  match ← findList config d.attrs with
  | none =>
    Logged.report
      (.derivesAdded (config.derivePath.renderWith config.separator) d.ident wanted.length)
    let a : Attribute := ⟨config.derivePath, .metadata (.list wanted), none⟩
    return .ok { d with attrs := d.attrs ++ [a] }
  | some (i, a, listed) =>
    let overlap := wanted.filter (·.isIn listed)
    if overlap.isEmpty then
      Logged.report (.derivesExtended d.ident wanted.length)
      let a : Attribute := ⟨a.path, .metadata (.list (listed ++ wanted)), a.loc⟩
      return .ok { d with attrs := d.attrs.set i a }
    else return .error (refusal config overlap a.loc)

/-- Reads the requests and merges them. -/
def merge (config : Config) (requests : List Request) (d : Declaration) :
    Logged (Except Failure Declaration) :=
  match readAll requests with
  | .error e => pure (.error (.path e))
  | .ok wanted => mergeEntries config wanted d

end DeriveKit.Derive
