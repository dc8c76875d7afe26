import DeriveKit.Session.Basic

/-!
Running the steps of a session: questions about attributes, edits of the declaration, and lookups
kept under names.

A run is a list of steps on one session. A step that fails answers why and the run goes on, so every
point of a run is the session after the steps so far, refused ones included. What every step keeps,
every run keeps (`run_invariant`), and a change that can be made up of changes is made by a run if it
is made by each step (`run_change`).
-/
namespace DeriveKit.Session

/-! ## Questions about a list of attributes -/

/-- The lists that a namespace view shows. -/
def namespaceMetas (lists : List (List Entry)) : Answer := .metadatas (lists.map .list)

/-- The entries `tag(..)` with the given parameters. -/
def tagEntries (tag : Path) (lists : List (List Entry)) : Answer := .entries (lists.map (.list tag))

namespace Query

/-- Runs `f` on a path once it is read. -/
def withPath {α : Type} (p : Path.Given) (f : Path → Logged (Except Failure α)) :
    Logged (Except Failure α) :=
  match p.read with
  | .ok p => f p
  | .error e => pure (.error (.path e))

/-- Runs `f` and answers with what it finds. -/
def answer {α : Type} (f : Logged α) (g : α → Answer) : Logged (Except Failure Answer) := do
  let a ← f
  return .ok (g a)

/-- Runs `f` and answers with the entry it finds, or with why it stopped. -/
def answerEntry (f : Logged (Except Abort (Option Entry))) : Logged (Except Failure Answer) := do
  let e ← f
  return (e.map .entry).mapError .abort

/-- The namespace is read before the tag, except where a tag alone decides. Where tags are sought in
lists already found, the walk comes before the tag is read. -/
def run (attrs : List Attribute) : Query → Logged (Except Failure Answer)
  | byNamespace ns => withPath ns fun ns => answer (Lookup.byNamespace attrs ns) .attributes
  | containsNamespace ns => withPath ns fun ns => answer (Lookup.containsNamespace attrs ns) .flag
  | namespaceLists ns =>
    withPath ns fun ns => answer (Lookup.namespaceLists attrs ns) namespaceMetas
  | namespaceParameters ns =>
    withPath ns fun ns => answer (Lookup.namespaceParameters attrs ns) .entries
  | namespaceParameter ns config =>
    withPath ns fun ns => answerEntry (Lookup.namespaceParameter config attrs ns)
  | tagLists ns tag =>
    withPath ns fun ns => do
      let lists ← Lookup.namespaceLists attrs ns
      match tag with
      | .ok tag => withPath tag fun tag => return .ok (tagEntries tag (Lookup.tagLists lists tag))
      | .error e => return .error e
  | findTag ns tag =>
    withPath ns fun ns => withPath tag fun tag => answer (Lookup.findTag attrs ns tag) .entries
  | containsTag ns tag config =>
    withPath tag fun tag => withPath ns fun ns =>
      answer (Lookup.containsTag config.tagMatch attrs ns tag) .flag
  | tagParameter ns tag config =>
    withPath ns fun ns => withPath tag fun tag =>
      answerEntry (Lookup.tagParameter config attrs ns tag)
  | wellFormed => answer (Lookup.wellFormed attrs) .wellFormed
  | metadata index =>
    return do
      let a ← at? attrs index
      let m ← a.metadata.mapError .abort
      return .metadata m

end Query

/-! ## Edits -/

/-- Numbers for `count` fields that are new. -/
def freshIdentities (identities : List Nat) (count : Nat) : List Nat :=
  List.range' identities.length count

/-- The numbers after an addition. -/
def grownIdentities (identities : List Nat) : Addition → List Nat
  | .own => identities ++ identities
  | .fields fs => identities ++ freshIdentities identities fs.length

/-- How a field list grows, alone and inside its declaration. -/
structure Grow where
  bare : Option FieldList → List Field → Except Abort FieldList
  inside : Addition → Declaration → Logged (Except ShapeError Declaration)

def growNamed : Grow := ⟨FieldList.appendNamed, Declaration.appendNamed⟩

def growTuple : Grow := ⟨FieldList.appendTuple, Declaration.appendTuple⟩

/-- Appends to a target and answers the list it becomes. A list without fields stands for no place
in the declaration: what is appended to it alone is answered and not kept. -/
def appendTo (grow : Grow) (s : State) (addition : Addition) :
    Target → Logged (State × Except Failure Answer)
  | .declaration => do
    match ← grow.inside addition s.declaration with
    | .error e => return (s, .error (.ofShape e))
    | .ok d =>
      let s := { s with
        declaration := d, identities := grownIdentities s.identities addition }
      return (s, (fieldList d .fields).map .fields)
  | .fields =>
    match s.declaration.data with
    | .struct fields semi =>
      match grow.bare fields (addition.toAppend s.declaration.ownFields) with
      | .error a => return (s, .error (.abort a))
      | .ok grown =>
        let kept := match fields with
          | some .unit => s
          | _ => { s with
              declaration := { s.declaration with data := .struct (some grown) semi }
              identities := grownIdentities s.identities addition }
        return (kept, .ok (.fields (some grown)))
    | .enum _ => return (s, .error (.abort (s.declaration.unlike .struct)))
  | .variant i =>
    match at? (variants s.declaration) i, position? i (variants s.declaration).length with
    | .ok v, some i =>
      match grow.bare v.fields (addition.toAppend s.declaration.ownFields) with
      | .error a => return (s, .error (.abort a))
      | .ok grown =>
        let kept := match v.fields with
          | some .unit => s
          | _ => editVariant s i fun v => { v with fields := some grown }
        return (kept, .ok (.fields (some grown)))
    | _, _ => return (s, .error .indexOutOfRange)

/-- Whether there is a list to append to. -/
def targetExists (d : Declaration) : Target → Except Failure Unit
  | .declaration | .fields => .ok ()
  | .variant i => (at? (variants d) i).map fun _ => ()

/-- Appends to a target that exists, once the addition is read. -/
def append (grow : Grow) (s : State) (addition : Part Addition) (target : Target) :
    Logged (State × Except Failure Answer) :=
  match targetExists s.declaration target, addition with
  | .error e, _ => return (s, .error e)
  | .ok _, .error e => return (s, .error e)
  | .ok _, .ok addition => appendTo grow s addition target

/-- Sets the type of a newtype's field, then adds an attribute to it. What was done before a part
proves unreadable stays done. -/
def editNewtype (s : State) (type : Option (Part TypeExpr)) (attr : Option (Part Attribute)) :
    State × Except Failure Answer :=
  match s.declaration.newtypeField with
  | .error a => (s, .error (.abort a))
  | .ok _ =>
    let answer (s : State) : State × Except Failure Answer :=
      (s, (s.declaration.newtypeField.map .field).mapError .abort)
    let addAttr (s : State) : State × Except Failure Answer :=
      match attr with
      | none => answer s
      | some (.error e) => (s, .error e)
      | some (.ok a) =>
        answer (editOwnField s 0 fun field => { field with attrs := field.attrs ++ [a] })
    match type with
    | none => addAttr s
    | some (.error e) => (s, .error e)
    | some (.ok type) => addAttr (editOwnField s 0 fun field => { field with type })

/-- Edits the attributes of an owner, unless the owner does not exist or the edit is refused. -/
def edit (s : State) (on : Owner) (f : List Attribute → Except Failure (List Attribute)) :
    State × Except Failure Answer :=
  match locate s.declaration on with
  | .error e => (s, .error e)
  | .ok place =>
    match f (place.attributes s.declaration) with
    | .ok attrs => (editAttributes s place fun _ => attrs, .ok .none)
    | .error e => (s, .error e)

/-! ## Views

A view is read anew each time, so it shows edits made in between; a snapshot shows the lists that
were there when it was taken. -/

namespace View

/-- What a view shows. -/
def read (d : Declaration) : View → Logged (Except Failure Answer)
  | ofNamespace place ns =>
    Query.answer (Lookup.namespaceLists (place.attributes d) ns) namespaceMetas
  | ofTag place ns tag =>
    Query.answer (Lookup.namespaceLists (place.attributes d) ns) fun lists =>
      tagEntries tag (Lookup.tagLists lists tag)
  | snapshot lists tag => return .ok (tagEntries tag (Lookup.tagLists lists tag))

/-- The parameters of what a view shows. -/
def parameters (d : Declaration) : View → Logged (Except Failure Answer)
  | ofNamespace place ns =>
    Query.answer (Lookup.namespaceParameters (place.attributes d) ns) .entries
  | ofTag place ns tag => Query.answer (Lookup.findTag (place.attributes d) ns tag) .entries
  | snapshot lists tag => return .ok (.entries (Lookup.tagLists lists tag).flatten)

end View

/-- Keeps a view under a name, in place of an older one. -/
def keep (s : State) (name : String) (view : View) : State :=
  { s with views := (name, view) :: s.views.filter (·.1 != name) }

def view (s : State) (name : String) : Except Failure View :=
  match s.views.lookup name with
  | some view => .ok view
  | none => .error (.unknownView name)

/-! ## Steps -/

/-- The session about a declaration, before any step. -/
def State.start (d : Declaration) : State where
  declaration := d
  identities := List.range d.ownFields.length
  views := []

/-- The shape of a target. A struct's field list alone is never "no struct". -/
def targetShape (d : Declaration) : Target → Except Failure Shape
  | .declaration => d.shape.mapError .ofShape
  | target => do
    let fields ← fieldList d target
    (FieldList.shape? fields).mapError .ofShape

/-- The path that a part stands for. -/
def readPath (p : Part Path.Given) : Except Failure Path :=
  p.bind fun p => p.read.mapError .path

/-- The question of a step that only asks, with what it is about. -/
def ask (s : State) (r : Except Failure Answer) : Logged (State × Except Failure Answer) :=
  return (s, r)

/-- Runs one step. A failing step leaves a session that goes on. -/
def step (s : State) : Step → Logged (State × Except Failure Answer)
  | .query q on =>
    match locate s.declaration on, q with
    | .error e, _ => ask s (.error e)
    | .ok _, .error e => ask s (.error e)
    | .ok place, .ok q => do
      let r ← q.run (place.attributes s.declaration)
      return (s, r)
  | .typeName on =>
    ask s <| (field s.declaration on).bind fun f => (f.typeName.map .text).mapError .abort
  | .isPhantomData on =>
    ask s <| (field s.declaration on).bind fun f => (f.isPhantomData.map .flag).mapError .abort
  | .shape target => ask s <| (targetShape s.declaration target).map fun shape => .text shape.name
  | .hasShape shape target =>
    ask s <| (targetShape s.declaration target).map fun actual => .flag (actual == shape)
  | .construction .declaration =>
    ask s <| (s.declaration.construction.map .construction).mapError .abort
  | .construction target =>
    ask s <| (fieldList s.declaration target).map fun fields => .construction (.ofFields fields)
  | .structData =>
    let data := s.declaration.structData.map fun (fields, semi) => .data (.struct fields semi)
    ask s (data.mapError .abort)
  | .fields =>
    ask s <| (s.declaration.structData.map fun (fields, _) => .fields fields).mapError .abort
  | .fieldsOfShape shape =>
    ask s <| ((s.declaration.fieldsOfShape shape).map .fields).mapError .ofShape
  | .newtypeField => ask s <| (s.declaration.newtypeField.map .field).mapError .abort
  | .isNewtype => ask s <| .ok (.flag s.declaration.isNewtype)
  | .requireNamed name =>
    match Shape.ofName? name with
    | some shape => ask s <| ((s.declaration.require shape).map fun _ => .none).mapError .ofShape
    | none => ask s <| .error (.unknownShape name)
  | .require shape => ask s <| ((s.declaration.require shape).map fun _ => .none).mapError .ofShape
  | .dump => ask s <| .ok (.declaration s.declaration)
  | .appendDerives requests config => do
    match ← Derive.merge config requests s.declaration with
    | .ok d => return ({ s with declaration := d }, .ok .none)
    | .error e => return (s, .error e)
  | .appendNamed addition target => append growNamed s addition target
  | .appendTuple addition target => append growTuple s addition target
  | .editNewtype type attr => return editNewtype s type attr
  | .pushAttribute a on => return edit s on fun attrs => a.map fun a => attrs ++ [a]
  | .insertAttribute index a on =>
    return edit s on fun attrs =>
      a.map fun a => attrs.insertIdx (insertPosition index attrs.length) a
  | .removeAttribute index on =>
    return edit s on fun attrs =>
      match position? index attrs.length with
      | some i => .ok (attrs.eraseIdx i)
      | none => .error .nothingToRemove
  | .setPayload index payload on =>
    match payload with
    | .error e => ask s (.error e)
    | .ok payload =>
      return edit s on fun attrs =>
        (locateIn attrs index).map fun i => attrs.modify i fun a => { a with payload }
  | .viewNamespace name ns on =>
    match locate s.declaration on, readPath ns with
    | .error e, _ => ask s (.error e)
    | .ok _, .error e => ask s (.error e)
    | .ok place, .ok ns => return (keep s name (.ofNamespace place ns), .ok (.path ns))
  | .viewTag name source tag =>
    match view s source, readPath tag with
    | .error e, _ => ask s (.error e)
    | .ok _, .error e => ask s (.error e)
    | .ok (.ofNamespace place ns), .ok tag =>
      return (keep s name (.ofTag place ns tag), .ok (.path tag))
    | .ok _, .ok _ => ask s (.error (.unknownView source))
  | .viewTagSnapshot name ns tag on =>
    match locate s.declaration on, readPath ns with
    | .error e, _ => ask s (.error e)
    | .ok _, .error e => ask s (.error e)
    | .ok place, .ok ns => do
      let lists ← Lookup.namespaceLists (place.attributes s.declaration) ns
      match readPath tag with
      | .ok tag => return (keep s name (.snapshot lists tag), .ok (.path tag))
      | .error e => return (s, .error e)
  | .readView name => do
    match view s name with
    | .ok view => return (s, ← view.read s.declaration)
    | .error e => return (s, .error e)
  | .readViewParameters name => do
    match view s name with
    | .ok view => return (s, ← view.parameters s.declaration)
    | .error e => return (s, .error e)

/-! ## Runs of steps -/

/-- The session after a step. -/
def State.after (s : State) (t : Step) : State := (step s t).value.1

/-- What a step answers. -/
def State.answer (s : State) (t : Step) : Except Failure Answer := (step s t).value.2

/-- The session after a list of steps. -/
def run (s : State) (steps : List Step) : State := steps.foldl State.after s

theorem run_cons (s : State) (t : Step) (ts : List Step) : run s (t :: ts) = run (s.after t) ts := rfl

theorem run_append (s : State) (ts us : List Step) : run s (ts ++ us) = run (run s ts) us :=
  List.foldl_append

/-- A later point of a run is reached from an earlier one by the steps between them. -/
theorem run_take_of_le (s : State) (steps : List Step) {n m : Nat} (h : n ≤ m) :
    run s (steps.take m) = run (run s (steps.take n)) ((steps.take m).drop n) := by
  have hsplit := List.take_append_drop n (steps.take m)
  rw [List.take_take, Nat.min_eq_left h] at hsplit
  rw [← run_append, hsplit]

theorem run_invariant {P : State → Prop} {steps : List Step}
    (hstep : ∀ s, ∀ t ∈ steps, P s → P (s.after t)) {s : State} (h : P s) : P (run s steps) := by
  induction steps generalizing s with
  | nil => exact h
  | cons t ts ih =>
    rw [run_cons]
    exact ih (fun s u hu => hstep s u (List.mem_cons_of_mem t hu)) (hstep s t List.mem_cons_self h)

theorem run_change {R : State → State → Prop} {steps : List Step} (hrefl : ∀ s, R s s)
    (htrans : ∀ s₁ s₂ s₃, R s₁ s₂ → R s₂ s₃ → R s₁ s₃)
    (hstep : ∀ s, ∀ t ∈ steps, R s (s.after t)) (s : State) : R s (run s steps) := by
  refine run_invariant (P := fun s' => R s s') ?_ (hrefl s)
  intro s' t ht hs'
  exact htrans s s' (s'.after t) hs' (hstep s' t ht)

end DeriveKit.Session
