import DeriveKit.Shape
import DeriveKit.Proofs.FieldGrowth
import DeriveKit.Proofs.Joins
import DeriveKit.Proofs.LiteralText

/-!
# Construction forms

A construction form binds each field by position under a name of its own, and each named field under its name.
Appending fields appends their bindings, and the text of a form tells its delimiter and its bindings
(`construction_forms_bind_fields`): no binding holds a comma, so each of them ends at its comma, and the text
that closes the list has none.
-/
namespace DeriveKit

open DeriveKit.Lexed (isNameStart isNameChar)

/-- A letter or an underscore, and then letters, digits and underscores. -/
def Text.isIdentifier (s : String) : Bool :=
  match s.toList with
  | [] => false
  | c :: cs => isNameStart c && cs.all isNameChar

theorem Text.isNameChar_of_mem {s : String} (h : isIdentifier s = true) : ∀ c ∈ s.toList, isNameChar c = true := by
  rw [isIdentifier] at h
  split at h
  · cases h
  · next c cs heq =>
    rw [Bool.and_eq_true, List.all_eq_true] at h
    rw [heq]
    exact List.forall_mem_cons.2 ⟨by rw [isNameChar, h.1, Bool.true_or], h.2⟩

/-- The names that fields have are identifiers. -/
def IdentifierNames (fs : List Field) : Prop := ∀ f ∈ fs, ∀ name ∈ f.name, Text.isIdentifier name = true

namespace Construction

/-! ## Bindings by position -/

/-- Different numbers have different digits, since the digits of a number write it. -/
theorem decimal_injective {m n : Nat} (h : Text.decimal m = Text.decimal n) : m = n := by
  have hvalue : ∀ k, Text.decimalValue (Nat.toDigits 10 k) = k := fun _ => Nat.ofDigitChars_ten_toDigits
  rw [← hvalue m, ← hvalue n, String.ofList_injective h]

theorem nodup_tuple (fs : List Field) : (ofFields (some (.tuple fs))).bindings.Nodup := by
  refine List.Pairwise.map _ (fun m n hne h => hne ?_) List.nodup_range
  exact decimal_injective ((String.append_right_inj _).1 h)

theorem length_tuple (fs : List Field) : (ofFields (some (.tuple fs))).bindings.length = fs.length := by
  simp [ofFields, bindings]

theorem map_some_named (fs : List Field) :
    (ofFields (some (.named fs))).bindings.map some = (fs.map (·.name)).filter (·.isSome) := by
  induction fs with
  | nil => rfl
  | cons f fs ih =>
    cases hname : f.name with
    | none => simpa [ofFields, bindings, hname] using ih
    | some name => simpa [ofFields, bindings, hname] using ih

/-! ## Texts of bindings -/

/-- A binding ends at its comma. -/
theorem selfEnding_binding : SelfEnding (fun name : String => ',' ∉ name.toList) fun name => name.toList ++ [','] := by
  intro a b ha hb r s h
  have htake : ∀ {name : String} (rest : List Char), ',' ∉ name.toList →
      (name.toList ++ [','] ++ rest).takeWhile (· != ',') = name.toList := by
    intro name rest hname
    rw [List.append_assoc, List.takeWhile_append_of_pos]
    · simp
    · intro c hc
      simpa using ne_of_mem_of_not_mem hc hname
  rw [← String.toList_inj, ← htake r ha, ← htake s hb, h]

theorem toList_renderBindings (names : List String) :
    (renderBindings names).toList = [' '].intercalate (names.map fun name => name.toList ++ [',']) := by
  rw [renderBindings, String.toList_intercalate, List.map_map]
  simp [Function.comp_def]

/-- Bindings are told from their text, up to whatever closes it without a comma. -/
theorem renderBindings_injective {closing : List Char} (hclosing : ',' ∉ closing) {names names' : List String}
    (hnames : ∀ name ∈ names, ',' ∉ name.toList) (hnames' : ∀ name ∈ names', ',' ∉ name.toList)
    (h : (renderBindings names).toList ++ closing = (renderBindings names').toList ++ closing) : names = names' := by
  rw [toList_renderBindings, toList_renderBindings] at h
  refine selfEnding_binding.join_injective ?_ ?_ hnames hnames' h
  · rintro name rest _ rfl
    simp at hclosing
  · rintro name rest _ rfl
    simp at hclosing

theorem render_injective {f g : Construction} (hf : ∀ name ∈ f.bindings, ',' ∉ name.toList)
    (hg : ∀ name ∈ g.bindings, ',' ∉ name.toList) (h : f.render = g.render) : f = g := by
  have hlists := congrArg String.toList h
  cases f with
  | unit =>
    cases g with
    | unit => rfl
    | tuple names => simp [render] at hlists
    | named names => cases names <;> simp [render] at hlists
  | tuple names =>
    cases g with
    | unit => simp [render] at hlists
    | tuple names' =>
      simp only [render, String.toList_append, List.append_assoc, List.append_cancel_left_eq] at hlists
      exact congrArg tuple (renderBindings_injective (by decide) hf hg hlists)
    | named names' => cases names' <;> simp [render] at hlists
  | named names =>
    cases g with
    | unit => cases names <;> simp [render] at hlists
    | tuple names' => cases names <;> simp [render] at hlists
    | named names' =>
      cases names with
      | nil =>
        cases names' with
        | nil => rfl
        | cons name' names' => simp [render] at hlists
      | cons name names =>
        cases names' with
        | nil => simp [render] at hlists
        | cons name' names' =>
          simp only [render, String.toList_append, List.append_assoc, List.append_cancel_left_eq] at hlists
          exact congrArg named (renderBindings_injective (by decide) hf hg hlists)

theorem comma_not_mem_binding {fields : Option FieldList} (hfields : ∀ list ∈ fields, IdentifierNames list.toList) :
    ∀ name ∈ (ofFields fields).bindings, ',' ∉ name.toList := by
  intro name hname hcomma
  cases fields with
  | none => cases hname
  | some list =>
    cases list with
    | unit => cases hname
    | named fs =>
      obtain ⟨f, hf, hfname⟩ := List.mem_filterMap.1 hname
      exact absurd (Text.isNameChar_of_mem (hfields _ rfl f hf name hfname) ',' hcomma) (by decide)
    | tuple fs =>
      obtain ⟨n, -, rfl⟩ := List.mem_map.1 hname
      rw [String.toList_append] at hcomma
      obtain hunderscore | hdigit := List.mem_append.1 hcomma
      · exact absurd hunderscore (by decide)
      · rw [Text.decimal, String.toList_ofList] at hdigit
        exact absurd (Literal.isDigit_of_mem_toDigits hdigit) (by decide)

/-! ## Bindings of lists that grow -/

/-- What the form of a list of fields becomes when fields are appended, `added` being the form of these alone. -/
structure GrowsBy (old added new : Construction) : Prop where
  of_unit : old = .unit → new.bindings = added.bindings
  keeps : old ≠ .unit → old.bindings <+: new.bindings
  length : new.bindings.length = old.bindings.length + added.bindings.length

theorem growsBy_of_bare {k : FieldKind} {fields grown : FieldList} {more : List Field}
    (h : k.grow.bare (some fields) more = .ok grown) :
    GrowsBy (ofFields (some fields)) (ofFields (some (k.list more))) (ofFields (some grown)) := by
  cases hk : fields.takes k with
  | false =>
    rw [FieldKind.bare_of_refused more hk] at h
    cases h
  | true =>
    rw [FieldKind.bare_of_takes more hk] at h
    obtain rfl := Except.ok.inj h
    cases fields with
    | unit => exact ⟨fun _ => rfl, fun hne => absurd rfl hne, (Nat.zero_add _).symm⟩
    | named fs =>
      obtain rfl := eq_of_beq hk
      have hnames : (ofFields (some (.named (fs ++ more)))).bindings =
          fs.filterMap (·.name) ++ more.filterMap (·.name) := List.filterMap_append
      exact ⟨fun hunit => (by cases hunit), fun _ => hnames ▸ List.prefix_append .., hnames ▸ List.length_append⟩
    | tuple fs =>
      obtain rfl := eq_of_beq hk
      refine ⟨fun hunit => (by cases hunit), fun _ => ?_, ?_⟩
      · simp only [ofFields, bindings, FieldKind.list, FieldList.toList, List.length_append, List.range_add,
          List.map_append]
        exact List.prefix_append ..
      · simp only [FieldKind.list, FieldList.toList, length_tuple, List.length_append]

/-- A struct takes fields exactly as its list does. -/
theorem growsBy_of_inside {k : FieldKind} {a : Addition} {d d' : Declaration}
    (h : (k.grow.inside a d).value = .ok d') :
    ∃ form form', d.construction = .ok form ∧ d'.construction = .ok form' ∧
      GrowsBy form (ofFields (some (k.list (a.toAppend d.ownFields)))) form' := by
  cases hdata : d.data with
  | enum vs =>
    rw [FieldKind.inside_enum a hdata] at h
    cases h
  | struct list semi =>
    cases list with
    | none =>
      rw [FieldKind.inside_missing a hdata] at h
      cases h
    | some fields =>
      have hown : d.ownFields = fields.toList := by rw [Declaration.ownFields, hdata]
      have hform : d.construction = .ok (ofFields (some fields)) := by
        rw [Declaration.construction, Declaration.structData, hdata]
        rfl
      rw [FieldKind.inside_struct a hdata] at h
      rw [hown]
      split at h
      · next grown hgrown =>
        cases h
        exact ⟨_, _, hform, rfl, growsBy_of_bare hgrown⟩
      · cases h

/-- A form binds the fields of a list by position under names of their own, one each and in their order, and
named fields under their names. When fields are appended to a list or to a struct the bindings there are stay
in front, and a list without fields takes on the bindings of what is appended. Forms with the same text have
the same delimiter and bindings. -/
theorem construction_forms_bind_fields :
    (∀ fs : List Field,
      let names := (ofFields (some (.tuple fs))).bindings
      names.Nodup ∧ names.length = fs.length ∧ ∀ n < fs.length, names[n]? = some ("_" ++ Text.decimal n)) ∧
    (∀ fs : List Field,
      (ofFields (some (.named fs))).bindings.map some = (fs.map (·.name)).filter (·.isSome)) ∧
    (∀ (k : FieldKind) (fields grown : FieldList) (more : List Field),
      k.grow.bare (some fields) more = .ok grown →
      GrowsBy (ofFields (some fields)) (ofFields (some (k.list more))) (ofFields (some grown))) ∧
    (∀ (k : FieldKind) (a : Addition) (d d' : Declaration),
      (k.grow.inside a d).value = .ok d' →
      ∃ form form', d.construction = .ok form ∧ d'.construction = .ok form' ∧
        GrowsBy form (ofFields (some (k.list (a.toAppend d.ownFields)))) form') ∧
    ∀ fields fields' : Option FieldList,
      (∀ list ∈ fields, IdentifierNames list.toList) → (∀ list ∈ fields', IdentifierNames list.toList) →
      (ofFields fields).render = (ofFields fields').render →
      (ofFields fields).delimiter = (ofFields fields').delimiter ∧
        (ofFields fields).bindings = (ofFields fields').bindings := by
  refine ⟨fun fs => ⟨nodup_tuple fs, length_tuple fs, fun n hn => ?_⟩, map_some_named,
    fun _ _ _ _ => growsBy_of_bare, fun _ _ _ _ => growsBy_of_inside, fun fields fields' hfields hfields' h => ?_⟩
  · simp [ofFields, bindings, hn]
  · have hforms := render_injective (comma_not_mem_binding hfields) (comma_not_mem_binding hfields') h
    rw [hforms]
    exact ⟨rfl, rfl⟩

/-- A pair takes a third field, a struct without fields takes a named one, and a field without a name leaves no
trace in the text of a form, wherever it stands. -/
theorem construction_forms_bind_fields_nameless :
    let a := GrowthCall.plainField (some "a")
    let nameless := GrowthCall.plainField none
    let pair := FieldList.tuple [nameless, nameless]
    let triple := FieldList.tuple [nameless, nameless, nameless]
    let before := FieldList.named [nameless, a]
    let after := FieldList.named [a, nameless]
    let grown := { GrowthCall.bareStruct with data := .struct (some (.named [a])) false }
    (ofFields (some triple)).bindings.Nodup ∧
    (ofFields (some before)).bindings.map some = [some "a"] ∧
    FieldKind.tuple.grow.bare (some pair) [nameless] = .ok triple ∧
    (ofFields (some pair)).bindings <+: (ofFields (some triple)).bindings ∧
    (FieldKind.named.grow.inside (.fields [a]) GrowthCall.bareStruct).value = .ok grown ∧
    (∃ form form', GrowthCall.bareStruct.construction = .ok form ∧ grown.construction = .ok form' ∧
      GrowsBy form (ofFields (some (.named [a]))) form') ∧
    IdentifierNames before.toList ∧ IdentifierNames after.toList ∧
    (ofFields (some before)).render = "\x7b a, \x7d" ∧ (ofFields (some after)).render = "\x7b a, \x7d" ∧
    (ofFields (some before)).bindings = (ofFields (some after)).bindings := by
  intro a nameless pair triple before after grown
  obtain ⟨htuple, hnamed, hbare, hinside, htext⟩ := construction_forms_bind_fields
  have hbefore : IdentifierNames before.toList := by
    simp only [before, a, nameless, GrowthCall.plainField, IdentifierNames, FieldList.toList]
    decide
  have hafter : IdentifierNames after.toList := by
    simp only [after, a, nameless, GrowthCall.plainField, IdentifierNames, FieldList.toList]
    decide
  refine ⟨(htuple _).1, hnamed _, rfl, (hbare .tuple pair triple [nameless] rfl).keeps (by decide), rfl,
    hinside .named (.fields [a]) _ grown rfl, hbefore, hafter, by decide, by decide, ?_⟩
  refine (htext (some before) (some after) ?_ ?_ (by decide)).2
  · rintro list ⟨⟩
    exact hbefore
  · rintro list ⟨⟩
    exact hafter

end Construction

end DeriveKit
