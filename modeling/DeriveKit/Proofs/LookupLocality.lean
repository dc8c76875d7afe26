import DeriveKit.Proofs.FirstList
import DeriveKit.Session.Run

/-!
# What a lookup sees

A lookup in a namespace sees the well-formed attributes of that path and nothing else. Each lookup is given
here as a function of what it sees, whichever way it walks the attributes. So an attribute that is malformed
or of another path makes no difference to any answer, wherever it stands, and attributes that differ in what
is seen are told apart by some question (`lookup_locality`).
-/
namespace DeriveKit

/-- A lookup in `ns` takes the attribute into account. -/
def Attribute.isSeen (ns : Path) (a : Attribute) : Bool :=
  match a.payload with
  | .metadata _ => a.path == ns
  | .verbatim _ => false

/-- The attributes that a lookup in `ns` takes into account, in order. -/
def seen (ns : Path) (attrs : List Attribute) : List Attribute := attrs.filter (·.isSeen ns)

section Seen

variable {ns : Path} {a : Attribute}

theorem Attribute.isSeen_eq_false_iff :
    a.isSeen ns = false ↔ (∃ text, a.payload = .verbatim text) ∨ a.path ≠ ns := by
  unfold isSeen
  cases a.payload <;> simp

theorem seen_append (ns : Path) (xs ys : List Attribute) : seen ns (xs ++ ys) = seen ns xs ++ seen ns ys :=
  List.filter_append ..

theorem seen_cons_of_unseen (h : a.isSeen ns = false) (attrs : List Attribute) :
    seen ns (a :: attrs) = seen ns attrs := by
  simp [seen, h]

end Seen

/-! ## The value of each lookup -/

namespace Lookup

variable {β : Type} {ns : Path} {attrs attrs' : List Attribute}

/-- What `f` makes of the well-formed attributes, in order. -/
theorem filterMap_wellFormed (f : Attribute → Meta → Option β) (attrs : List Attribute) :
    (wellFormed attrs).value.filterMap (fun (a, m) => f a m) = attrs.filterMap (made f) := by
  induction attrs with
  | nil => rfl
  | cons a attrs ih =>
    unfold wellFormed
    cases h : a.payload <;> simp [List.filterMap_cons, made, h, ih]

/-- A lookup makes something of the attributes that it sees only. -/
theorem made_listIn_eq_ite (ns : Path) (a : Attribute) :
    made (listIn? ns) a = if a.isSeen ns then a.entries? else none := by
  unfold made Attribute.isSeen Attribute.entries? listIn?
  cases a.payload <;> simp

theorem value_byNamespace (attrs : List Attribute) (ns : Path) :
    (byNamespace attrs ns).value = seen ns attrs := by
  simp only [byNamespace, Logged.value_bind, Logged.value_pure]
  induction attrs with
  | nil => rfl
  | cons a attrs ih =>
    unfold wellFormed
    cases h : a.payload with
    | verbatim text =>
      have hunseen : a.isSeen ns = false := Attribute.isSeen_eq_false_iff.2 (.inl ⟨text, h⟩)
      rw [seen_cons_of_unseen hunseen, ← ih]
      rfl
    | metadata m => by_cases hp : a.path = ns <;> simp_all [seen, Attribute.isSeen]

theorem value_namespaceLists (attrs : List Attribute) (ns : Path) :
    (namespaceLists attrs ns).value = (seen ns attrs).filterMap Attribute.entries? := by
  calc (namespaceLists attrs ns).value
      = attrs.filterMap (made (listIn? ns)) := filterMap_wellFormed (listIn? ns) attrs
    _ = attrs.filterMap fun a => if a.isSeen ns then a.entries? else none := by
      rw [funext (made_listIn_eq_ite ns)]
    _ = (seen ns attrs).filterMap Attribute.entries? := List.filterMap_filter.symm

theorem value_namespaceParameters (attrs : List Attribute) (ns : Path) :
    (namespaceParameters attrs ns).value = ((seen ns attrs).filterMap Attribute.entries?).flatten := by
  simp [namespaceParameters, value_namespaceLists]

theorem value_findTag (attrs : List Attribute) (ns tag : Path) :
    (findTag attrs ns tag).value =
      ((namespaceParameters attrs ns).value.filterMap (tagList? tag)).flatten := rfl

theorem isSome_value_first (f : Attribute → Meta → Option β) (attrs : List Attribute) :
    (first f attrs).value.isSome = attrs.any fun a => (made f a).isSome := by
  induction attrs with
  | nil => rfl
  | cons a attrs ih =>
    rw [value_first_cons, List.any_cons, ← ih]
    cases made f a <;> simp

/-- A search among the lists of a namespace is a search among the attributes. -/
theorem isSome_made_of_list (holds : List Entry → Bool) (ns : Path) (a : Attribute) :
    (made (fun a m =>
      match listIn? ns a m with
      | some entries => if holds entries then some () else none
      | none => none) a).isSome = (made (listIn? ns) a).any holds := by
  unfold made
  cases a.payload with
  | verbatim text => rfl
  | metadata m =>
    dsimp only
    cases listIn? ns a m with
    | none => rfl
    | some entries => cases h : holds entries <;> simp [h]

/-- A tag is present if it is some parameter of the namespace, although the walk ends at the first list
that holds it. -/
theorem value_containsTag (rule : TagMatch) (attrs : List Attribute) (ns tag : Path) :
    (containsTag rule attrs ns tag).value =
      (namespaceParameters attrs ns).value.any (isTag rule tag) := by
  have hlists : (namespaceLists attrs ns).value = attrs.filterMap (made (listIn? ns)) :=
    filterMap_wellFormed (listIn? ns) attrs
  simp only [containsTag, namespaceParameters, Logged.value_bind, Logged.value_pure, isSome_value_first,
    hlists, List.any_flatten, List.any_filterMap]
  congr 1
  funext a
  refine (isSome_made_of_list (·.any (isTag rule tag)) ns a).trans ?_
  cases made (listIn? ns) a <;> rfl

/-! ## Lookups that see the same -/

theorem value_namespaceParameter_congr (config : Config) (h : seen ns attrs = seen ns attrs') :
    (namespaceParameter config attrs ns).value = (namespaceParameter config attrs' ns).value := by
  simp only [namespaceParameter, Logged.value_bind, value_byNamespace, h]

theorem value_namespaceParameters_congr (h : seen ns attrs = seen ns attrs') :
    (namespaceParameters attrs ns).value = (namespaceParameters attrs' ns).value := by
  simp only [value_namespaceParameters, h]

theorem value_findTag_congr (tag : Path) (h : seen ns attrs = seen ns attrs') :
    (findTag attrs ns tag).value = (findTag attrs' ns tag).value := by
  simp only [value_findTag, value_namespaceParameters_congr h]

theorem value_tagParameter_congr (config : Config) (tag : Path) (h : seen ns attrs = seen ns attrs') :
    (tagParameter config attrs ns tag).value = (tagParameter config attrs' ns tag).value := by
  simp only [tagParameter, Logged.value_bind, value_findTag_congr tag h]

end Lookup

/-! ## Questions about a namespace -/

namespace Session.Query

/-- The namespace that a question names. -/
def namespace? : Query → Option Path.Given
  | byNamespace ns | containsNamespace ns | namespaceLists ns | namespaceParameters ns
  | namespaceParameter ns _ | tagLists ns _ | findTag ns _ | containsTag ns _ _ | tagParameter ns _ _ =>
    some ns
  | wellFormed | metadata _ => none

/-- The question is about the namespace `ns`, given as a path or as a text of it. -/
def About (q : Query) (ns : Path) : Prop := ∃ g, q.namespace? = some g ∧ g.read = .ok ns

section Values

variable {α : Type}

theorem withPath_of_read {g : Path.Given} {p : Path} (h : g.read = .ok p)
    (f : Path → Logged (Except Failure α)) : withPath g f = f p := by
  unfold withPath
  rw [h]

/-- Two continuations that agree on every path agree on a path still to be read. -/
theorem value_withPath_congr {f f' : Path → Logged (Except Failure α)} (g : Path.Given)
    (h : ∀ p, (f p).value = (f' p).value) : (withPath g f).value = (withPath g f').value := by
  unfold withPath
  cases g.read with
  | ok p => exact h p
  | error e => rfl

@[simp]
theorem value_answer (f : Logged α) (k : α → Answer) : (answer f k).value = .ok (k f.value) := rfl

@[simp]
theorem value_answerEntry (f : Logged (Except Abort (Option Entry))) :
    (answerEntry f).value = (f.value.map .entry).mapError .abort := rfl

end Values

variable {q : Query} {ns : Path} {attrs attrs' : List Attribute}

/-- Whatever a question about `ns` makes of the attributes, it makes of those that are seen. -/
theorem value_run_congr (hq : q.About ns) (h : seen ns attrs = seen ns attrs') :
    (q.run attrs).value = (q.run attrs').value := by
  obtain ⟨g, hg, hread⟩ := hq
  cases q with
  | wellFormed | metadata => cases hg
  | byNamespace | containsNamespace | namespaceLists | namespaceParameters | namespaceParameter | tagLists =>
    cases hg
    simp only [run, withPath_of_read hread, value_answer, value_answerEntry, Logged.value_bind,
      Lookup.containsNamespace, Lookup.value_byNamespace, Lookup.value_namespaceLists,
      Lookup.value_namespaceParameters, Lookup.value_namespaceParameter_congr _ h, h]
  | findTag | containsTag | tagParameter =>
    cases hg
    -- The tag may still be unreadable, and then it is so for both.
    simp only [run, withPath_of_read hread]
    apply value_withPath_congr
    intro tag
    simp only [value_answer, value_answerEntry, Lookup.value_findTag_congr tag h, Lookup.value_containsTag,
      Lookup.value_namespaceParameters_congr h, Lookup.value_tagParameter_congr _ tag h]

/-- The attributes of the namespace are an answer, so they are all that can be told apart. -/
theorem seen_eq_of_value_run (h : (run attrs (.byNamespace (.path ns))).value =
    (run attrs' (.byNamespace (.path ns))).value) : seen ns attrs = seen ns attrs' := by
  simp only [run, withPath_of_read (g := .path ns) rfl, value_answer, Lookup.value_byNamespace] at h
  exact Answer.attributes.inj (Except.ok.inj h)

/-- Two lists of attributes give the same answers, errors included, to all questions about a namespace exactly
if its well-formed attributes are the same in both. So an attribute that is malformed or of another path can
be added, removed or moved past others without effect. -/
theorem lookup_locality (ns : Path) :
    (∀ attrs attrs', seen ns attrs = seen ns attrs' ↔
      ∀ q : Query, q.About ns → (q.run attrs).value = (q.run attrs').value) ∧
    ∀ (q : Query) (a : Attribute), q.About ns → ((∃ text, a.payload = .verbatim text) ∨ a.path ≠ ns) →
      ∀ front middle back,
        (q.run (front ++ a :: (middle ++ back))).value = (q.run (front ++ (middle ++ back))).value ∧
        (q.run (front ++ a :: (middle ++ back))).value = (q.run (front ++ (middle ++ a :: back))).value := by
  constructor
  · intro attrs attrs'
    constructor
    · intro h q hq
      exact value_run_congr hq h
    · intro h
      exact seen_eq_of_value_run (h _ ⟨_, rfl, rfl⟩)
  · intro q a hq ha front middle back
    have hunseen := Attribute.isSeen_eq_false_iff.2 ha
    constructor
    · apply value_run_congr hq
      simp only [seen_append, seen_cons_of_unseen hunseen]
    · apply value_run_congr hq
      simp only [seen_append, seen_cons_of_unseen hunseen]

/-- The parameter of `#[my::ns(1)]` is found among attributes of `my`, of `my::ns::x` and a malformed one of
`my::ns`, in whatever order they stand. -/
theorem lookup_locality_among_others :
    let my : Segment := ⟨"my", by decide⟩
    let ns : Path := ⟨my, [⟨"ns", by decide⟩]⟩
    let one : Attribute := ⟨ns, .metadata (.list [.literal (.int 1)]), some ⟨1, 1⟩⟩
    let malformed : Attribute := ⟨ns, .verbatim "= a b", some ⟨2, 1⟩⟩
    let shorter : Attribute := ⟨.single my, .metadata (.list [.literal (.int 2)]), some ⟨3, 1⟩⟩
    let longer : Attribute := ⟨⟨my, [⟨"ns", by decide⟩, ⟨"x", by decide⟩]⟩, .metadata .marker, some ⟨4, 1⟩⟩
    let q : Query := .namespaceParameter (.path ns) Config.default
    q.About ns ∧ seen ns [malformed, shorter, one, longer] = seen ns [longer, one] ∧
    (q.run [malformed, shorter, one, longer]).value = (q.run [longer, one]).value ∧
    (q.run [longer, one]).value = .ok (.entry (some (.literal (.int 1)))) ∧
    malformed.path = ns ∧ longer.path ≠ ns ∧
    (q.run [malformed, one]).value = (q.run [one, malformed]).value ∧
    (q.run [longer, one]).value = (q.run [one]).value := by
  intro my ns one malformed shorter longer q
  have hq : q.About ns := ⟨_, rfl, rfl⟩
  have hseen : seen ns [malformed, shorter, one, longer] = seen ns [longer, one] := rfl
  have hlonger : longer.path ≠ ns := by decide
  obtain ⟨hsame, hothers⟩ := lookup_locality ns
  exact ⟨hq, hseen, (hsame _ _).1 hseen q hq, rfl, rfl, hlonger,
    (hothers q malformed hq (.inl ⟨_, rfl⟩) [] [one] []).2, (hothers q longer hq (.inr hlonger) [] [one] []).1⟩

end Session.Query

end DeriveKit
