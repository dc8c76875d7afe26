import DeriveKit.Config
import DeriveKit.Log

/-!
Looking up attributes.

In `#[my::ns(tag(One, two = ""), flag)]` the namespace is `my::ns`, the tags are `tag` and `flag`,
and the parameters of `tag` are `One` and `two = ""`. Attributes with malformed arguments are passed
over and reported.
-/
namespace DeriveKit.Lookup

variable {β : Type}

/-- The well-formed attributes with their metadata. -/
def wellFormed : List Attribute → Logged (List (Attribute × Meta))
  | [] => pure []
  | a :: attrs =>
    match a.payload with
    | .verbatim text => do
      Logged.report (.skipped a.path text)
      wellFormed attrs
    | .metadata m => do
      let rest ← wellFormed attrs
      return (a, m) :: rest

/-- The first well-formed attribute of which `f` makes something, with its index. Attributes after
it are not visited. -/
def first (f : Attribute → Meta → Option β) : List Attribute → Logged (Option (Nat × β))
  | [] => pure none
  | a :: attrs =>
    match a.payload with
    | .verbatim text => do
      Logged.report (.skipped a.path text)
      let found ← first f attrs
      return found.map fun (i, b) => (i + 1, b)
    | .metadata m =>
      match f a m with
      | some b => pure (some (0, b))
      | none => do
        let found ← first f attrs
        return found.map fun (i, b) => (i + 1, b)

/-- The well-formed attributes of a namespace. -/
def byNamespace (attrs : List Attribute) (ns : Path) : Logged (List Attribute) := do
  let found ← wellFormed attrs
  return (found.filter fun (a, _) => a.path == ns).map (·.1)

def containsNamespace (attrs : List Attribute) (ns : Path) : Logged Bool := do
  let found ← byNamespace attrs ns
  return !found.isEmpty

/-- The entries of an attribute of the namespace that carries a list. -/
def listIn? (ns : Path) (a : Attribute) (m : Meta) : Option (List Entry) :=
  if a.path == ns then m.entries? else none

/-- The lists `#[ns(..)]`, in order. -/
def namespaceLists (attrs : List Attribute) (ns : Path) : Logged (List (List Entry)) := do
  let found ← wellFormed attrs
  return found.filterMap fun (a, m) => listIn? ns a m

/-- The entries of all `#[ns(..)]`, in order. -/
def namespaceParameters (attrs : List Attribute) (ns : Path) : Logged (List Entry) := do
  let lists ← namespaceLists attrs ns
  return lists.flatten

/-- The parameters of an entry `tag(..)`. -/
def tagList? (tag : Path) : Entry → Option (List Entry)
  | .list p entries => if p == tag then some entries else none
  | _ => none

/-- The lists `tag(..)` in namespace lists, in order. -/
def tagLists (lists : List (List Entry)) (tag : Path) : List (List Entry) :=
  lists.flatten.filterMap (tagList? tag)

/-- The parameters of all `#[ns(tag(..))]`, in order. -/
def findTag (attrs : List Attribute) (ns tag : Path) : Logged (List Entry) := do
  let lists ← namespaceLists attrs ns
  return (tagLists lists tag).flatten

/-- Whether an entry counts as the tag. -/
def isTag (rule : TagMatch) (tag : Path) (e : Entry) : Bool :=
  match rule with
  | .anyEntry => e.path? == some tag
  | .listOnly => (tagList? tag e).isSome

/-- Whether some `#[ns(..)]` holds the tag. The walk ends at the first that does. -/
def containsTag (rule : TagMatch) (attrs : List Attribute) (ns tag : Path) : Logged Bool := do
  let found ← first (fun a m =>
    match listIn? ns a m with
    | some entries => if entries.any (isTag rule tag) then some () else none
    | none => none) attrs
  return found.isSome

/-- The parameter of `#[ns(parameter)]`. There is none without the attribute, or if it carries no
list; the attribute may not be repeated and its list holds one entry. -/
def namespaceParameter (config : Config) (attrs : List Attribute) (ns : Path) :
    Logged (Except Abort (Option Entry)) := do
  let found ← byNamespace attrs ns
  let cause := Cause.namespaceArity (ns.renderWith config.separator)
  match found with
  | [] => return .ok none
  | [a] =>
    match a.entries? with
    | none => return .ok none
    | some [e] => return .ok (some e)
    | some entries => return .error ⟨cause entries, a.loc⟩
  | _ :: b :: _ => return .error ⟨cause (found.filterMap Attribute.entries?).flatten, b.loc⟩

/-- The parameter of `#[ns(tag(parameter))]`; there may not be several. -/
def tagParameter (config : Config) (attrs : List Attribute) (ns tag : Path) :
    Logged (Except Abort (Option Entry)) := do
  let found ← findTag attrs ns tag
  match found with
  | [] => return .ok none
  | [e] => return .ok (some e)
  | _ =>
    let cause :=
      Cause.tagArity (ns.renderWith config.separator) (tag.renderWith config.separator) found
    return .error ⟨cause, none⟩

end DeriveKit.Lookup
