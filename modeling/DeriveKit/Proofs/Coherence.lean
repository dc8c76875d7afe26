import DeriveKit.Proofs.DeriveRuns
import DeriveKit.Proofs.FirstError

/-!
# Coherent declarations

In a declaration that was read from a text the fields in braces have names and those in parentheses
have none, and a semicolon ends a struct unless its fields stand in braces. Calls that append fields of
the right kind and calls that add derives keep it so, whether they are made on the declaration or on
one of its lists alone, and they keep the variants of an enum (`stays_coherent`).
-/
namespace DeriveKit

open Session

/-! ## Names of fields -/

/-- The fields that a list of the kind may hold. -/
def FieldKind.Admits : FieldKind → Field → Prop
  | named, f => f.name.isSome = true
  | tuple, f => f.name = none

namespace FieldList

/-- Whether the fields stand in braces. -/
def isNamed : FieldList → Bool
  | named _ => true
  | unit | tuple _ => false

/-- Fields have names exactly if they stand in braces. -/
def Fits : FieldList → Prop
  | unit => True
  | named fs => ∀ f ∈ fs, FieldKind.named.Admits f
  | tuple fs => ∀ f ∈ fs, FieldKind.tuple.Admits f

theorem Fits.admits {list : FieldList} {k : FieldKind} (h : list.Fits) (hk : list.takes k = true) :
    ∀ f ∈ list.toList, k.Admits f := by
  cases list with
  | unit => simp [toList]
  | named fs => rw [eq_of_beq hk]; exact h
  | tuple fs => rw [eq_of_beq hk]; exact h

theorem fits_list {k : FieldKind} {fs : List Field} (h : ∀ f ∈ fs, k.Admits f) : (k.list fs).Fits := by
  cases k <;> exact h

end FieldList

/-- Fields to append that a list of the kind may hold. The declaration's own fields are asked for
nothing: they are appended only where they fit already. -/
def Addition.Suits (a : Addition) (k : FieldKind) : Prop := ∀ fs, a = .fields fs → ∀ f ∈ fs, k.Admits f

/-- A list that fits still does when it has grown. -/
theorem FieldList.Fits.grown {list : FieldList} {k : FieldKind} {a : Addition} {current : List Field}
    (h : list.Fits) (hk : list.takes k = true) (ha : a.Suits k) (hcurrent : ∀ f ∈ current, k.Admits f) :
    (k.list (list.toList ++ a.toAppend current)).Fits := by
  refine fits_list fun f hf => ?_
  rcases List.mem_append.1 hf with hf | hf
  · exact h.admits hk f hf
  · cases a with
    | fields fs => exact ha fs rfl f hf
    | own => exact hcurrent f hf

/-- Every list holds fields of its kind, and a struct ends with a semicolon unless its fields stand
in braces. -/
inductive Data.Coherent : Data → Prop where
  | struct {list : FieldList} (h : list.Fits) : Coherent (.struct (some list) (!list.isNamed))
  | enum {vs : List Variant} (h : ∀ v ∈ vs, ∃ list, v.fields = some list ∧ list.Fits) :
      Coherent (.enum vs)

/-- The names of the variants; a struct has no variants at all. -/
def Data.variantNames? : Data → Option (List String)
  | .struct .. => none
  | .enum vs => some (vs.map (·.ident))

/-! ## Reading -/

/-- What is collected from values comes from them. -/
theorem Reader.of_mem_collect {ε α γ : Type} {f : γ → Except ε α} {cs : List γ} {as : List α}
    (h : collect (cs.map f) = .ok as) : ∀ a ∈ as, ∃ c ∈ cs, f c = .ok a := by
  induction cs generalizing as with
  | nil =>
    cases h
    simp
  | cons c cs ih =>
    obtain ⟨a, ha, h⟩ := ok_of_bind h
    obtain ⟨as', has, h⟩ := ok_of_bind h
    cases h
    intro b hb
    rcases List.mem_cons.1 hb with rfl | hb
    · exact ⟨c, List.mem_cons_self, ha⟩
    · obtain ⟨c', hc', hvalue⟩ := ih has b hb
      exact ⟨c', List.mem_cons_of_mem c hc', hvalue⟩

namespace Grammar

theorem CommaList.of_mem {α : Type} {L : Phrase α} {ts : List Token} {as : List α}
    (h : CommaList L ts as) : ∀ a ∈ as, ∃ us, L us a := by
  induction h with
  | nil => simp
  | last h => simpa using ⟨_, h⟩
  | cons h hcomma hs ih =>
    intro a ha
    rcases List.mem_cons.1 ha with rfl | ha
    · exact ⟨_, h⟩
    · exact ih a ha

section Values

variable {chars : Charset}

theorem name_of_value {f : FieldTree} {field : Field} (h : f.value chars = .ok field) :
    field.name = f.name := by
  obtain ⟨attrs, -, rfl⟩ := ok_of_map h
  rfl

theorem CommaList.admits {k : FieldKind} {L : Phrase FieldTree} {us : List Token}
    {trees : List FieldTree} {fs : List Field} (h : CommaList L us trees)
    (hL : ∀ ts tree field, L ts tree → tree.value chars = .ok field → k.Admits field)
    (hvalue : Reader.collect (trees.map (FieldTree.value chars)) = .ok fs) : ∀ f ∈ fs, k.Admits f := by
  intro f hf
  obtain ⟨tree, htree, hf⟩ := Reader.of_mem_collect hvalue f hf
  obtain ⟨ts, h⟩ := h.of_mem tree htree
  exact hL ts tree f h hf

theorem IsNamedFields.coherent {ts : List Token} {fields : FieldsTree} {list : FieldList}
    (h : IsNamedFields ts fields) (hvalue : fields.value chars = .ok list) :
    list.Fits ∧ fields.semi = !list.isNamed := by
  cases h with
  | mk hleft h hright =>
    obtain ⟨fs, hfs, rfl⟩ := ok_of_map hvalue
    refine ⟨h.admits (fun ts tree field h hfield => ?_) hfs, rfl⟩
    cases h
    rw [FieldKind.Admits, name_of_value hfield]
    rfl

theorem IsTupleFields.coherent {ts : List Token} {fields : FieldsTree} {list : FieldList}
    (h : IsTupleFields ts fields) (hvalue : fields.value chars = .ok list) :
    list.Fits ∧ fields.semi = !list.isNamed := by
  cases h with
  | mk hleft h hright =>
    obtain ⟨fs, hfs, rfl⟩ := ok_of_map hvalue
    refine ⟨h.admits (fun ts tree field h hfield => ?_) hfs, rfl⟩
    cases h
    rw [FieldKind.Admits, name_of_value hfield]

theorem IsVariant.fits {ts : List Token} {variant : VariantTree} {v : Variant}
    (h : IsVariant ts variant) (hvalue : variant.value chars = .ok v) :
    ∃ list, v.fields = some list ∧ list.Fits := by
  obtain ⟨attrs, -, hvalue⟩ := ok_of_bind hvalue
  obtain ⟨list, hlist, hvalue⟩ := ok_of_bind hvalue
  cases hvalue
  refine ⟨list, rfl, ?_⟩
  cases h with
  | mk hattrs hname hfields htokens =>
    cases hfields with
    | none =>
      cases hlist
      exact True.intro
    | named h => exact (h.coherent hlist).1
    | tuple h => exact (h.coherent hlist).1

theorem IsDeclaration.coherent {ts : List Token} {tree : DeclarationTree} {d : Declaration}
    (h : IsDeclaration ts tree) (hvalue : tree.value chars = .ok d) : d.data.Coherent := by
  obtain ⟨attrs, -, hvalue⟩ := ok_of_bind hvalue
  obtain ⟨data, hdata, hvalue⟩ := ok_of_bind hvalue
  cases hvalue
  cases h with
  | mk hattrs hvis hitem htokens =>
    cases hitem with
    | struct hword hname hbody =>
      obtain ⟨list, hlist, rfl⟩ := ok_of_map hdata
      cases hbody with
      | unit =>
        cases hlist
        exact .struct True.intro
      | named h =>
        obtain ⟨hfits, hsemi⟩ := h.coherent hlist
        rw [hsemi]
        exact .struct hfits
      | tuple h hsemicolon =>
        obtain ⟨hfits, hsemi⟩ := h.coherent hlist
        rw [hsemi]
        exact .struct hfits
    | enum hword hname hleft h hright =>
      obtain ⟨vs, hvs, rfl⟩ := ok_of_map hdata
      refine .enum fun v hv => ?_
      obtain ⟨variant, hvariant, hvalue⟩ := Reader.of_mem_collect hvs v hv
      obtain ⟨us, h⟩ := h.of_mem variant hvariant
      exact h.fits hvalue

end Values

end Grammar

theorem Source.coherent_of_readDeclaration {chars : Charset} {text : String} {d : Declaration}
    (h : readDeclaration chars text = .ok d) : d.data.Coherent := by
  obtain ⟨value, hread, hvalue⟩ := ok_of_bind h
  obtain ⟨ts, -, tree, htree, rfl⟩ := (Symbol.read_eq_ok_iff (s := .declaration)).1 hread
  exact htree.coherent (ok_of_mapError hvalue)

/-! ## One call -/

namespace FieldKind

/-- The call that appends fields of the kind to a target. -/
def step : FieldKind → Session.Part Addition → Target → Step
  | named => .appendNamed
  | tuple => .appendTuple

variable {k : FieldKind} {a : Addition} {s : State}

theorem step_eq (k : FieldKind) (s : State) (part : Session.Part Addition) (target : Target) :
    Session.step s (k.step part target) = append k.grow s part target := by
  cases k <;> rfl

theorem bare_missing (k : FieldKind) (more : List Field) :
    k.grow.bare none more = .error ⟨.shape k.requirement, none⟩ := by
  cases k <;> rfl

/-- How data may change when fields are appended. A list that is reached alone and has no fields
does not change. -/
inductive Grows (k : FieldKind) (a : Addition) : Data → Data → Prop where
  | refused {data : Data} : Grows k a data data
  | struct {list : FieldList} {semi : Bool} (hk : list.takes k = true) :
      Grows k a (.struct (some list) semi)
        (.struct (some (k.list (list.toList ++ a.toAppend list.toList))) (k.semi semi))
  | fields {list : FieldList} {semi : Bool} (hk : list.takes k = true) (hne : list ≠ .unit) :
      Grows k a (.struct (some list) semi)
        (.struct (some (k.list (list.toList ++ a.toAppend list.toList))) semi)
  | variant {vs : List Variant} {v : Variant} {list : FieldList} {i : Nat} (hi : vs[i]? = some v)
      (hv : v.fields = some list) (hk : list.takes k = true) :
      Grows k a (.enum vs) (.enum (vs.modify i fun v =>
        { v with fields := some (k.list (list.toList ++ a.toAppend [])) }))

/-- Where the list takes the kind, growing it succeeds; everywhere else it is refused. -/
theorem bare_cases (k : FieldKind) (list : Option FieldList) (more : List Field) :
    (∃ why, k.grow.bare list more = .error why) ∨ ∃ fields, list = some fields ∧
      fields.takes k = true ∧ k.grow.bare list more = .ok (k.list (fields.toList ++ more)) := by
  cases list with
  | none => exact .inl ⟨_, k.bare_missing more⟩
  | some fields =>
    cases hk : fields.takes k with
    | false => exact .inl ⟨_, bare_of_refused more hk⟩
    | true => exact .inr ⟨fields, rfl, hk, bare_of_takes more hk⟩

theorem grows_declaration (k : FieldKind) (s : State) (a : Addition) :
    k.Grows a s.declaration.data (appendTo k.grow s a .declaration).value.1.declaration.data := by
  simp only [appendTo, Logged.value_bind]
  cases h : s.declaration.data with
  | enum vs =>
    rw [inside_enum a h]
    rw [← h]
    exact .refused
  | struct list semi =>
    cases list with
    | none =>
      rw [inside_missing a h]
      rw [← h]
      exact .refused
    | some fields =>
      rw [inside_struct a h]
      obtain ⟨why, hbare⟩ | ⟨_, heq, hk, hbare⟩ :=
        k.bare_cases (some fields) (a.toAppend fields.toList)
      · rw [hbare, ← h]
        exact .refused
      · cases heq
        rw [hbare]
        exact .struct hk

theorem grows_fields (k : FieldKind) (s : State) (a : Addition) :
    k.Grows a s.declaration.data (appendTo k.grow s a .fields).value.1.declaration.data := by
  cases h : s.declaration.data with
  | enum vs =>
    simp only [appendTo, h]
    rw [← h]
    exact .refused
  | struct list semi =>
    simp only [appendTo, h]
    obtain ⟨why, hbare⟩ | ⟨fields, rfl, hk, hbare⟩ :=
        k.bare_cases list (a.toAppend s.declaration.ownFields)
    · rw [hbare, ← h]
      exact .refused
    · have hown : s.declaration.ownFields = fields.toList := by rw [Declaration.ownFields, h]
      rw [hbare, hown]
      cases fields with
      | unit =>
        -- What grew out of a list without fields is answered and not kept.
        rw [← h]
        exact .refused
      | named fs => exact .fields hk (by simp)
      | tuple fs => exact .fields hk (by simp)

theorem getElem?_of_at? {α : Type} {xs : List α} {index : Int} {x : α} {i : Nat}
    (hat : at? xs index = .ok x) (hi : position? index xs.length = some i) : xs[i]? = some x := by
  rw [at?, hi, Option.bind_some] at hat
  cases h : xs[i]? with
  | none =>
    rw [h] at hat
    cases hat
  | some y =>
    rw [h] at hat
    cases hat
    rfl

theorem grows_variant (k : FieldKind) (s : State) (a : Addition) (index : Int) :
    k.Grows a s.declaration.data (appendTo k.grow s a (.variant index)).value.1.declaration.data := by
  simp only [appendTo]
  split
  next v i hat hi =>
    have hv := getElem?_of_at? hat hi
    obtain ⟨why, hbare⟩ | ⟨fields, hfields, hk, hbare⟩ :=
      k.bare_cases v.fields (a.toAppend s.declaration.ownFields)
    · rw [hbare]
      exact .refused
    · cases h : s.declaration.data with
      | struct list semi => simp [variants, h] at hv
      | enum vs =>
        rw [variants, h] at hv
        have hown : s.declaration.ownFields = [] := by rw [Declaration.ownFields, h]
        rw [hbare, hown, hfields]
        cases fields with
        | unit =>
          rw [← h]
          exact .refused
        | named fs =>
          simp only [editVariant, h]
          exact .variant hv hfields hk
        | tuple fs =>
          simp only [editVariant, h]
          exact .variant hv hfields hk
  next => exact .refused

/-- What a call that appends fields does to the data. -/
theorem grows_after (k : FieldKind) (s : State) (a : Addition) (target : Target) :
    k.Grows a s.declaration.data (s.after (k.step (.ok a) target)).declaration.data := by
  rw [State.after, step_eq]
  unfold append
  cases targetExists s.declaration target with
  | error e => exact .refused
  | ok _ =>
    cases target with
    | declaration => exact k.grows_declaration s a
    | fields => exact k.grows_fields s a
    | variant index => exact k.grows_variant s a index

theorem after_unreadable (k : FieldKind) (s : State) (e : Failure) (target : Target) :
    s.after (k.step (.error e) target) = s := by
  rw [State.after, step_eq]
  unfold append
  cases targetExists s.declaration target <;> rfl

theorem Grows.coherent {data data' : Data} (h : k.Grows a data data') (ha : a.Suits k)
    (hdata : data.Coherent) : data'.Coherent := by
  cases h with
  | refused => exact hdata
  | @struct list semi hk =>
    cases hdata with
    | struct hfits =>
      -- Named fields drop the semicolon, and a list that takes others had one.
      have hsemi : k.semi (!list.isNamed) = !(k.list (list.toList ++ a.toAppend list.toList)).isNamed := by
        cases k with
        | named => rfl
        | tuple =>
          cases list with
          | unit => rfl
          | named fs => cases hk
          | tuple fs => rfl
      rw [hsemi]
      exact .struct (hfits.grown hk ha (hfits.admits hk))
  | @fields list semi hk hne =>
    cases hdata with
    | struct hfits =>
      -- The list had fields already, so it is of the kind it was.
      have hnamed : (k.list (list.toList ++ a.toAppend list.toList)).isNamed = list.isNamed := by
        cases list with
        | unit => exact absurd rfl hne
        | named fs => rw [eq_of_beq hk]; rfl
        | tuple fs => rw [eq_of_beq hk]; rfl
      rw [← hnamed]
      exact .struct (hfits.grown hk ha (hfits.admits hk))
  | @variant vs v list i hi hv hk =>
    cases hdata with
    | enum hvs =>
      refine .enum fun w hw => ?_
      obtain ⟨j, hj⟩ := List.mem_iff_getElem?.1 hw
      rw [List.getElem?_modify] at hj
      obtain ⟨u, hu, rfl⟩ := Option.map_eq_some_iff.1 hj
      obtain ⟨list', hlist', hfits'⟩ := hvs u (List.mem_of_getElem? hu)
      by_cases hij : i = j
      · subst hij
        rw [hi] at hu
        cases hu
        rw [hv] at hlist'
        cases hlist'
        rw [if_pos rfl]
        exact ⟨_, rfl, hfits'.grown hk ha (by simp)⟩
      · rw [if_neg hij]
        exact ⟨list', hlist', hfits'⟩

theorem Grows.variantNames? {data data' : Data} (h : k.Grows a data data') :
    data'.variantNames? = data.variantNames? := by
  cases h with
  | refused => rfl
  | struct => rfl
  | fields => rfl
  | @variant vs v list i hi hv hk =>
    refine congrArg some (List.ext_getElem? fun j => ?_)
    simp only [List.getElem?_map, List.getElem?_modify]
    cases vs[j]? with
    | none => rfl
    | some u => by_cases hij : i = j <;> simp [hij]

end FieldKind

/-! ## Runs of calls -/

/-- A call that adds derives, or appends fields of the kind it is made for. -/
inductive Session.Fitting : Step → Prop where
  | derives (requests : List Derive.Request) (config : Config) :
      Fitting (.appendDerives requests config)
  | fields {k : FieldKind} {addition : Session.Part Addition} (target : Target)
      (h : ∀ a, addition = .ok a → a.Suits k) : Fitting (k.step addition target)

theorem Derive.data_after (s : State) (requests : List Request) (config : Config) :
    (s.after (.appendDerives requests config)).declaration.data = s.declaration.data := by
  rcases after_derives s requests config with hsame | ⟨wanted, -, -, hgrown⟩
  · rw [hsame]
  · rw [hgrown, grown]
    split <;> rfl

theorem Session.Fitting.after {t : Step} (h : Fitting t) {s : State} (hs : s.declaration.data.Coherent) :
    (s.after t).declaration.data.Coherent ∧
      (s.after t).declaration.data.variantNames? = s.declaration.data.variantNames? := by
  cases h with
  | derives requests config =>
    rw [Derive.data_after]
    exact ⟨hs, rfl⟩
  | @fields k addition target ha =>
    cases addition with
    | error e =>
      rw [FieldKind.after_unreadable]
      exact ⟨hs, rfl⟩
    | ok a =>
      have hgrows := k.grows_after s a target
      exact ⟨hgrows.coherent (ha a rfl) hs, hgrows.variantNames?⟩

/-- However fields are appended to a declaration that was read, and whatever derives are added: a
semicolon ends a struct unless its fields stand in braces, fields have names exactly if they stand in
braces, and an enum stays one with the variants it had, in their order. -/
theorem stays_coherent {chars : Charset} {text : String} {d : Declaration}
    (hread : Source.readDeclaration chars text = .ok d) {steps : List Step}
    (hsteps : ∀ t ∈ steps, Fitting t) :
    let d' := (run (State.start d) steps).declaration
    (∀ fields semi, d'.data = .struct fields semi →
      ∃ list, fields = some list ∧ list.Fits ∧ (semi = false ↔ ∃ fs, list = .named fs)) ∧
    (∀ vs, d'.data = .enum vs → ∀ v ∈ vs, ∃ list, v.fields = some list ∧ list.Fits) ∧
    (∀ fields semi, d.data = .struct fields semi → ∃ fields' semi', d'.data = .struct fields' semi') ∧
    ∀ vs, d.data = .enum vs → ∃ vs', d'.data = .enum vs' ∧ vs'.map (·.ident) = vs.map (·.ident) := by
  intro d'
  have hinv : d'.data.Coherent ∧ d'.data.variantNames? = d.data.variantNames? := by
    refine run_invariant (P := fun s => s.declaration.data.Coherent ∧
      s.declaration.data.variantNames? = d.data.variantNames?) (fun s t ht hs => ?_)
      ⟨Source.coherent_of_readDeclaration hread, rfl⟩
    obtain ⟨hcoherent, hnames⟩ := (hsteps t ht).after hs.1
    exact ⟨hcoherent, hnames.trans hs.2⟩
  obtain ⟨hcoherent, hnames⟩ := hinv
  refine ⟨fun fields semi h => ?_, fun vs h => ?_, fun fields semi h => ?_, fun vs h => ?_⟩
  · rw [h] at hcoherent
    cases hcoherent with
    | @struct list hfits => exact ⟨list, rfl, hfits, by cases list <;> simp [FieldList.isNamed]⟩
  · rw [h] at hcoherent
    cases hcoherent with
    | enum hvs => exact hvs
  · rw [h] at hnames
    cases h' : d'.data with
    | struct fields' semi' => exact ⟨_, _, rfl⟩
    | enum vs =>
      rw [h'] at hnames
      cases hnames
  · rw [h] at hnames
    cases h' : d'.data with
    | struct fields' semi' =>
      rw [h'] at hnames
      cases hnames
    | enum vs' =>
      rw [h'] at hnames
      exact ⟨vs', rfl, Option.some.inj hnames⟩

/-- A struct without fields, whose list refuses to keep fields while it is reached alone, takes a named
field and then its own fields once more. -/
theorem stays_coherent_bareStruct :
    let chars : Charset := .plain fun _ => none
    let steps := [FieldKind.tuple.step (.ok (.fields [GrowthCall.plainField none])) .fields,
      FieldKind.named.step (.ok (.fields [GrowthCall.plainField (some "a")])) .declaration,
      FieldKind.named.step (.ok .own) .fields]
    ∃ d, Source.readDeclaration chars "struct S;" = .ok d ∧ (∀ t ∈ steps, Fitting t) ∧
      ∃ fs, (run (State.start d) steps).declaration.data = .struct (some (.named fs)) false ∧
        fs.length = 2 ∧ ∀ f ∈ fs, f.name.isSome = true := by
  intro chars steps
  have hsteps : ∀ t ∈ steps, Fitting t := by
    simp only [steps, List.forall_mem_cons]
    refine ⟨.fields _ ?_, .fields _ ?_, .fields _ ?_, by simp⟩
    · rintro _ ⟨⟩ _ ⟨⟩ f hf
      rw [List.mem_singleton.1 hf]
      rfl
    · rintro _ ⟨⟩ _ ⟨⟩ f hf
      rw [List.mem_singleton.1 hf]
      rfl
    · rintro _ ⟨⟩ _ ⟨⟩
  have hread : Source.readDeclaration chars "struct S;" =
      .ok ⟨"S", .struct (some .unit) true, [], some .start⟩ := rfl
  obtain ⟨list, hlist, hfits, -⟩ := (stays_coherent hread hsteps).1 _ _ rfl
  cases hlist
  exact ⟨_, hread, hsteps, _, rfl, rfl, hfits⟩

end DeriveKit
