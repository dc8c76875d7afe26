import DeriveKit.Proofs.MergeLookups

/-!
# Lookups against one another

There are several ways to ask for a tag, each with a walk of its own: whether it is there, under either rule,
which lists it has, and which parameters these hold. All of them are settled by the parameters of the
namespace, in the order in which they stand (`tag_lookups_agree`).

A question for the only parameter is settled by the attributes that are found and by the parameters that they
hold together (`single_parameter_cases`). If there is no such parameter, the abort carries all of them.
-/
namespace DeriveKit

namespace Lookup

variable {ns tag : Path} {attrs : List Attribute} {e : Entry} {es : List Entry}

/-! ## Tags -/

theorem tagList?_eq_some_iff : tagList? tag e = some es ↔ e = .list tag es := by
  cases e with
  | list p entries => by_cases hp : p = tag <;> simp [tagList?, hp]
  | path | literal | keyValue => simp [tagList?]

theorem isTag_listOnly_iff : isTag .listOnly tag e = true ↔ ∃ es, tagList? tag e = some es :=
  Option.isSome_iff_exists

theorem isTag_anyEntry_iff : isTag .anyEntry tag e = true ↔ e.path? = some tag := beq_iff_eq

/-- What counts as a tag under the narrow rule counts under the wide one. -/
theorem isTag_anyEntry_of_listOnly (h : isTag .listOnly tag e = true) : isTag .anyEntry tag e = true := by
  obtain ⟨es, hes⟩ := isTag_listOnly_iff.1 h
  rw [tagList?_eq_some_iff.1 hes, isTag_anyEntry_iff]
  rfl

theorem tagLists_namespaceLists (attrs : List Attribute) (ns tag : Path) :
    tagLists (namespaceLists attrs ns).value tag =
      (namespaceParameters attrs ns).value.filterMap (tagList? tag) := rfl

theorem value_containsTag_eq_true_iff (rule : TagMatch) :
    (containsTag rule attrs ns tag).value = true ↔
      ∃ e ∈ (namespaceParameters attrs ns).value, isTag rule tag e = true := by
  rw [value_containsTag, List.any_eq_true]

/-- Under the narrow rule a tag is there exactly if it has a list, be that empty. -/
theorem value_containsTag_listOnly_iff :
    (containsTag .listOnly attrs ns tag).value = true ↔ tagLists (namespaceLists attrs ns).value tag ≠ [] := by
  rw [value_containsTag_eq_true_iff, tagLists_namespaceLists]
  constructor
  · rintro ⟨e, he, htag⟩
    obtain ⟨es, hes⟩ := isTag_listOnly_iff.1 htag
    exact List.ne_nil_of_mem (List.mem_filterMap.2 ⟨e, he, hes⟩)
  · intro hne
    obtain ⟨es, hmem⟩ := List.exists_mem_of_ne_nil _ hne
    obtain ⟨e, he, hes⟩ := List.mem_filterMap.1 hmem
    exact ⟨e, he, isTag_listOnly_iff.2 ⟨es, hes⟩⟩

/-! ## Attributes side by side -/

theorem value_byNamespace_append (xs ys : List Attribute) (ns : Path) :
    (byNamespace (xs ++ ys) ns).value = (byNamespace xs ns).value ++ (byNamespace ys ns).value := by
  simp only [value_byNamespace, seen_append]

theorem value_namespaceLists_append (xs ys : List Attribute) (ns : Path) :
    (namespaceLists (xs ++ ys) ns).value = (namespaceLists xs ns).value ++ (namespaceLists ys ns).value := by
  simp only [value_namespaceLists, seen_append, List.filterMap_append]

theorem value_findTag_append (xs ys : List Attribute) (ns tag : Path) :
    (findTag (xs ++ ys) ns tag).value = (findTag xs ns tag).value ++ (findTag ys ns tag).value := by
  simp only [value_findTag_eq_flatMap, value_namespaceParameters_append, List.flatMap_append]

/-- Although a walk that finds the tag among the first attributes does not come to the others. -/
theorem value_containsTag_append (rule : TagMatch) (xs ys : List Attribute) (ns tag : Path) :
    (containsTag rule (xs ++ ys) ns tag).value =
      ((containsTag rule xs ns tag).value || (containsTag rule ys ns tag).value) := by
  simp only [value_containsTag, value_namespaceParameters_append, List.any_append]

/-- The lookups of tags agree. A tag is there under the narrow rule exactly if it has a list, and under the wide
one exactly if some parameter of the namespace has its path. The parameters that are found are those of its
lists, which are those of the list entries with its path among the parameters of the namespace. So a tag with
parameters is there under the narrow rule, and then under the wide one. And each lookup goes through the
attributes one after the other: what it gives for two lists in a row is what it gives for both, put together. -/
theorem tag_lookups_agree (ns tag : Path) :
    (∀ attrs,
      let lists := tagLists (namespaceLists attrs ns).value tag
      let parameters := (namespaceParameters attrs ns).value
      let found := (findTag attrs ns tag).value
      ((containsTag .listOnly attrs ns tag).value = true ↔ lists ≠ []) ∧
      ((containsTag .anyEntry attrs ns tag).value = true ↔ ∃ e ∈ parameters, e.path? = some tag) ∧
      found = lists.flatten ∧ found = parameters.flatMap (·.under tag) ∧
      (found ≠ [] → (containsTag .listOnly attrs ns tag).value = true) ∧
      ((containsTag .listOnly attrs ns tag).value = true → (containsTag .anyEntry attrs ns tag).value = true)) ∧
    ∀ xs ys,
      (findTag (xs ++ ys) ns tag).value = (findTag xs ns tag).value ++ (findTag ys ns tag).value ∧
      (namespaceParameters (xs ++ ys) ns).value =
        (namespaceParameters xs ns).value ++ (namespaceParameters ys ns).value ∧
      (namespaceLists (xs ++ ys) ns).value = (namespaceLists xs ns).value ++ (namespaceLists ys ns).value ∧
      (byNamespace (xs ++ ys) ns).value = (byNamespace xs ns).value ++ (byNamespace ys ns).value ∧
      ∀ rule, (containsTag rule (xs ++ ys) ns tag).value =
        ((containsTag rule xs ns tag).value || (containsTag rule ys ns tag).value) := by
  constructor
  · intro attrs lists parameters found
    have hfound : found = lists.flatten := value_findTag attrs ns tag
    refine ⟨value_containsTag_listOnly_iff, ?_, hfound, value_findTag_eq_flatMap attrs ns tag, ?_, ?_⟩
    · simp only [value_containsTag_eq_true_iff, isTag_anyEntry_iff, parameters]
    · intro hne
      rw [value_containsTag_listOnly_iff]
      intro hlists
      apply hne
      rw [hfound, show lists = [] from hlists, List.flatten_nil]
    · rw [value_containsTag_eq_true_iff, value_containsTag_eq_true_iff]
      rintro ⟨e, he, htag⟩
      exact ⟨e, he, isTag_anyEntry_of_listOnly htag⟩
  · intro xs ys
    exact ⟨value_findTag_append xs ys ns tag, value_namespaceParameters_append xs ys ns,
      value_namespaceLists_append xs ys ns, value_byNamespace_append xs ys ns,
      fun rule => value_containsTag_append rule xs ys ns tag⟩

/-! ## Only parameters -/

theorem entries?_eq_some_iff_of_isSeen {a : Attribute} (h : a.isSeen ns = true) :
    a.entries? = some es ↔ a.Lists ns es := by
  rw [← Attribute.ite_entries?_eq_some_iff, if_pos (Attribute.path_of_isSeen h)]

theorem entries?_eq_none_iff_of_isSeen {a : Attribute} (h : a.isSeen ns = true) :
    a.entries? = none ↔ ∀ es, ¬ a.Lists ns es := by
  rw [← Attribute.ite_entries?_eq_none_iff, if_pos (Attribute.path_of_isSeen h)]

/-- If nothing, an entry and an abort come of three situations of which one holds, they come of no other. -/
theorem outcome_iff_of_cases {outcome : Except Abort (Option Entry)} {absent : Prop} {only : Entry → Prop}
    {abort : Abort} (habsent : absent → outcome = .ok none) (honly : ∀ e, only e → outcome = .ok (some e))
    (hother : ¬ absent → (∀ e, ¬ only e) → outcome = .error abort) :
    (outcome = .ok none ↔ absent) ∧ (∀ e, outcome = .ok (some e) ↔ only e) ∧
      ∀ abort', outcome = .error abort' ↔ (¬ absent ∧ ∀ e, ¬ only e) ∧ abort' = abort := by
  -- Each situation is left by the outcomes of the other two.
  have hexcluded : ∀ e, only e → ¬ absent := by
    intro e he ha
    have h := (habsent ha).symm.trans (honly e he)
    cases h
  by_cases ha : absent
  · have hnone : ∀ e, ¬ only e := fun e he => hexcluded e he ha
    simp [habsent ha, ha, hnone]
  by_cases he : ∃ e, only e
  · obtain ⟨e, he⟩ := he
    have hunique : ∀ e', only e' ↔ e = e' := by
      intro e'
      constructor
      · intro he'
        have h := (honly e he).symm.trans (honly e' he')
        cases h
        rfl
      · rintro rfl
        exact he
    simp [honly e he, ha, hunique]
  · have hnone : ∀ e, ¬ only e := fun e h => he ⟨e, h⟩
    simp [hother ha hnone, ha, hnone, eq_comm]

/-- Where it is reported that there is not just one parameter: at the second attribute if there are several. -/
def arityPlace : List Attribute → Option Position
  | _ :: b :: _ => b.loc
  | [a] => a.loc
  | [] => none

section Only

variable {config : Config} {a : Attribute}

theorem value_namespaceParameter_of_nil (h : seen ns attrs = []) :
    (namespaceParameter config attrs ns).value = .ok none := by
  simp only [namespaceParameter, Logged.value_bind, value_byNamespace, h, Logged.value_pure]

theorem value_namespaceParameter_of_noList (h : seen ns attrs = [a]) (ha : a.entries? = none) :
    (namespaceParameter config attrs ns).value = .ok none := by
  simp only [namespaceParameter, Logged.value_bind, value_byNamespace, h, ha, Logged.value_pure]

theorem value_namespaceParameter_of_one (h : seen ns attrs = [a]) (ha : a.entries? = some [e]) :
    (namespaceParameter config attrs ns).value = .ok (some e) := by
  simp only [namespaceParameter, Logged.value_bind, value_byNamespace, h, ha, Logged.value_pure]

theorem value_namespaceParameters_of_entries (h : seen ns attrs = [a]) (ha : a.entries? = some es) :
    (namespaceParameters attrs ns).value = es := by
  simp [value_namespaceParameters, h, ha]

/-- Everything else is refused. The abort of one attribute carries its list, that of several what is collected
from them, and both are the parameters of the namespace. -/
theorem value_namespaceParameter_of_arity (hmany : (∃ a b more, seen ns attrs = a :: b :: more) ∨
      ∃ a es, seen ns attrs = [a] ∧ a.entries? = some es ∧ ∀ e, es ≠ [e]) :
    (namespaceParameter config attrs ns).value =
      .error ⟨.namespaceArity (ns.renderWith config.separator) (namespaceParameters attrs ns).value,
        arityPlace (seen ns attrs)⟩ := by
  rcases hmany with ⟨a, b, more, h⟩ | ⟨a, es, h, ha, hes⟩
  · rw [value_namespaceParameters]
    simp only [namespaceParameter, Logged.value_bind, value_byNamespace, h, Logged.value_pure, arityPlace]
  · rw [value_namespaceParameters_of_entries h ha]
    simp only [namespaceParameter, Logged.value_bind, value_byNamespace, h, ha, arityPlace]
    rfl

theorem value_tagParameter_of_nil (h : (findTag attrs ns tag).value = []) :
    (tagParameter config attrs ns tag).value = .ok none := by
  simp only [tagParameter, Logged.value_bind, h, Logged.value_pure]

theorem value_tagParameter_of_one (h : (findTag attrs ns tag).value = [e]) :
    (tagParameter config attrs ns tag).value = .ok (some e) := by
  simp only [tagParameter, Logged.value_bind, h, Logged.value_pure]

theorem value_tagParameter_of_arity (hnil : (findTag attrs ns tag).value ≠ [])
    (hone : ∀ e, (findTag attrs ns tag).value ≠ [e]) :
    (tagParameter config attrs ns tag).value =
      .error ⟨.tagArity (ns.renderWith config.separator) (tag.renderWith config.separator)
        (findTag attrs ns tag).value, none⟩ := by
  simp only [tagParameter, Logged.value_bind]
  rfl

end Only

/-- The only parameter of a namespace, or of a tag in it. There is none without an attribute, or if the only
attribute carries no list, and there is one if the only attribute carries a list of one. In every other case the
abort carries all parameters of the namespace, at the place of the second attribute or of the only one. For a tag
the parameters that are found decide, however many attributes they come from. -/
theorem single_parameter_cases (config : Config) (attrs : List Attribute) (ns tag : Path) :
    let matching := (byNamespace attrs ns).value
    let parameters := (namespaceParameters attrs ns).value
    let outcome := (namespaceParameter config attrs ns).value
    let absent := matching = [] ∨ ∃ a, matching = [a] ∧ ∀ es, ¬ a.Lists ns es
    let only (e : Entry) := ∃ a es, matching = [a] ∧ a.Lists ns es ∧ parameters = [e]
    let tagged := (findTag attrs ns tag).value
    let tagOutcome := (tagParameter config attrs ns tag).value
    ((outcome = .ok none ↔ absent) ∧ (∀ e, outcome = .ok (some e) ↔ only e) ∧
      ∀ abort, outcome = .error abort ↔ (¬ absent ∧ ∀ e, ¬ only e) ∧
        abort = ⟨.namespaceArity (ns.renderWith config.separator) parameters, arityPlace matching⟩) ∧
    (tagOutcome = .ok none ↔ tagged = []) ∧ (∀ e, tagOutcome = .ok (some e) ↔ tagged = [e]) ∧
      ∀ abort, tagOutcome = .error abort ↔ (¬ tagged = [] ∧ ∀ e, ¬ tagged = [e]) ∧
        abort = ⟨.tagArity (ns.renderWith config.separator) (tag.renderWith config.separator) tagged, none⟩ := by
  intro matching parameters outcome absent only tagged tagOutcome
  have hmatching : matching = seen ns attrs := value_byNamespace attrs ns
  have hseen : ∀ a, matching = [a] → seen ns attrs = [a] ∧ a.isSeen ns = true := by
    intro a ha
    rw [hmatching] at ha
    exact ⟨ha, (List.mem_filter.1 (ha ▸ List.mem_cons_self : a ∈ seen ns attrs)).2⟩
  refine ⟨outcome_iff_of_cases ?_ ?_ ?_,
    outcome_iff_of_cases value_tagParameter_of_nil (fun e => value_tagParameter_of_one)
      value_tagParameter_of_arity⟩
  · rintro (hnil | ⟨a, hone, hlists⟩)
    · exact value_namespaceParameter_of_nil (hmatching ▸ hnil)
    · obtain ⟨ha, hsee⟩ := hseen a hone
      exact value_namespaceParameter_of_noList ha ((entries?_eq_none_iff_of_isSeen hsee).2 hlists)
  · rintro e ⟨a, es, hone, hlists, hparameters⟩
    obtain ⟨ha, hsee⟩ := hseen a hone
    have hes := (entries?_eq_some_iff_of_isSeen hsee).2 hlists
    have hlist : es = [e] := (value_namespaceParameters_of_entries ha hes).symm.trans hparameters
    subst hlist
    exact value_namespaceParameter_of_one ha hes
  · intro habsent honly
    cases hm : matching with
    | nil => exact absurd (.inl hm) habsent
    | cons a rest =>
      cases rest with
      | cons b more =>
        rw [← hm, hmatching]
        exact value_namespaceParameter_of_arity (.inl ⟨a, b, more, hmatching ▸ hm⟩)
      | nil =>
        obtain ⟨ha, hsee⟩ := hseen a hm
        cases hes : a.entries? with
        | none => exact absurd (.inr ⟨a, hm, (entries?_eq_none_iff_of_isSeen hsee).1 hes⟩) habsent
        | some es =>
          have hlists := (entries?_eq_some_iff_of_isSeen hsee).1 hes
          have hnot : ∀ e, es ≠ [e] := by
            rintro e rfl
            exact honly e ⟨a, [e], hm, hlists, value_namespaceParameters_of_entries ha hes⟩
          rw [← hm, hmatching]
          exact value_namespaceParameter_of_arity (.inr ⟨a, es, ha, hes, hnot⟩)

end Lookup

end DeriveKit
