import DeriveKit.Proofs.DeriveMerge
import DeriveKit.Proofs.LookupLocality

/-!
# What a merge does to lookups

A merge changes one attribute, or adds one, of the path that lists derives. Lookups in any other namespace
answer as before (`seen_grown`). In the namespace of the derives the parameters are those of before with the
new ones put in right behind the first list, which is the list that the merge itself finds by a walk of its
own. `merge_seen_by_lookups` says both of every merge that succeeds.
-/
namespace DeriveKit

/-- The parameters of an entry that is a list of the path `tag`. -/
def Entry.under (tag : Path) : Entry → List Entry
  | list p entries => if p = tag then entries else []
  | _ => []

/-! ## Around the first list -/

section Split

variable {p : Path} {attrs : List Attribute} {i : Nat} {a : Attribute} {es : List Entry}

theorem FirstList.eq_split (h : FirstList p attrs i a es) :
    attrs = attrs.take i ++ a :: attrs.drop (i + 1) := by
  obtain ⟨hi, rfl⟩ := List.getElem?_eq_some_iff.1 h.here
  rw [← List.drop_eq_getElem_cons hi, List.take_append_drop]

theorem FirstList.set_eq_split (h : FirstList p attrs i a es) (b : Attribute) :
    attrs.set i b = attrs.take i ++ b :: attrs.drop (i + 1) := by
  rw [List.set_eq_take_append_cons_drop, if_pos h.lt_length]

theorem FirstList.noList_take (h : FirstList p attrs i a es) : NoList p (attrs.take i) := by
  intro b hb
  obtain ⟨j, hj⟩ := List.mem_iff_getElem?.1 hb
  rw [List.getElem?_take] at hj
  split at hj
  next hlt => exact h.first j hlt b hj
  next => cases hj

theorem Attribute.Lists.isSeen_eq_false {ns : Path} (h : a.Lists p es) (hne : ns ≠ p) :
    a.isSeen ns = false := by
  rw [isSeen_eq_false_iff, h.1]
  exact .inr (Ne.symm hne)

end Split

theorem Attribute.path_of_isSeen {ns : Path} {a : Attribute} (h : a.isSeen ns = true) : a.path = ns := by
  by_cases hp : a.path = ns
  · exact hp
  · rw [isSeen_eq_false_iff.2 (.inr hp)] at h
    cases h

/-! ## Parameters of attributes side by side -/

namespace Lookup

variable {ns : Path} {attrs : List Attribute} {a : Attribute} {es : List Entry}

theorem value_namespaceParameters_append (xs ys : List Attribute) (ns : Path) :
    (namespaceParameters (xs ++ ys) ns).value =
      (namespaceParameters xs ns).value ++ (namespaceParameters ys ns).value := by
  simp only [value_namespaceParameters, seen_append, List.filterMap_append, List.flatten_append]

theorem value_namespaceParameters_of_lists (h : a.Lists ns es) (attrs : List Attribute) :
    (namespaceParameters (a :: attrs) ns).value = es ++ (namespaceParameters attrs ns).value := by
  have hseen : a.isSeen ns = true := by simp [Attribute.isSeen, h.1, h.2]
  have hentries : a.entries? = some es := by simp [Attribute.entries?, h.2, Meta.entries?]
  simp [value_namespaceParameters, seen, hseen, hentries]

theorem value_namespaceParameters_of_noList (h : NoList ns attrs) :
    (namespaceParameters attrs ns).value = [] := by
  have hnone : (seen ns attrs).filterMap Attribute.entries? = [] := by
    rw [List.filterMap_eq_nil_iff]
    intro a ha
    obtain ⟨hmem, hseen⟩ := List.mem_filter.1 ha
    have hentries := Attribute.ite_entries?_eq_none_iff.2 (h a hmem)
    rwa [if_pos (Attribute.path_of_isSeen hseen)] at hentries
  rw [value_namespaceParameters, hnone]
  rfl

theorem value_findTag_eq_flatMap (attrs : List Attribute) (ns tag : Path) :
    (findTag attrs ns tag).value = (namespaceParameters attrs ns).value.flatMap (·.under tag) := by
  rw [value_findTag]
  induction (namespaceParameters attrs ns).value with
  | nil => rfl
  | cons e es ih =>
    rw [List.flatMap_cons, ← ih, List.filterMap_cons]
    cases e with
    | list p entries => by_cases hp : p = tag <;> simp [tagList?, Entry.under, hp]
    | path | literal | keyValue => rfl

end Lookup

namespace Derive

open Session (Query)
open Lookup (namespaceParameters findTag)

variable {config : Config} {requests : List Request} {d d' : Declaration} {wanted : List Entry}

theorem exists_grown_of_merge (h : (merge config requests d).value = .ok d') :
    ∃ wanted, Reads requests wanted ∧ d' = grown config wanted d := by
  cases hread : readAll requests with
  | error err =>
    obtain ⟨text, htext⟩ := exists_rejects hread
    rw [merge_of_rejects htext] at h
    cases h
  | ok wanted =>
    have hreads := readAll_eq_ok_iff.1 hread
    rw [merge_of_reads hreads] at h
    cases hmerge : (mergeEntries config wanted d).value with
    | error abort =>
      rw [hmerge] at h
      cases h
    | ok d₁ =>
      rw [hmerge] at h
      cases h
      exact ⟨wanted, hreads, (mergeEntries_eq_ok_iff.1 hmerge).2⟩

/-- The attribute that a merge changes or adds is of the path that lists derives. -/
theorem seen_grown {ns : Path} (hns : ns ≠ config.derivePath) (wanted : List Entry) (d : Declaration) :
    seen ns (grown config wanted d).attrs = seen ns d.attrs := by
  rcases FirstList.exists_or_noList config.derivePath d.attrs with ⟨i, a, listed, h⟩ | h
  · have hold := h.lists.isSeen_eq_false hns
    have hnew := (withEntries_lists h.lists (listed ++ wanted)).isSeen_eq_false hns
    calc seen ns (grown config wanted d).attrs
        = seen ns (d.attrs.take i ++ withEntries a (listed ++ wanted) :: d.attrs.drop (i + 1)) := by
          rw [grown_of_firstList h, h.set_eq_split]
      _ = seen ns (d.attrs.take i) ++ seen ns (d.attrs.drop (i + 1)) := by
          rw [seen_append, seen_cons_of_unseen hnew]
      _ = seen ns (d.attrs.take i ++ a :: d.attrs.drop (i + 1)) := by
          rw [seen_append, seen_cons_of_unseen hold]
      _ = seen ns d.attrs := by rw [← h.eq_split]
  · have hnew := (newList_lists config wanted).isSeen_eq_false hns
    rw [grown_of_noList h, seen_append, seen_cons_of_unseen hnew]
    exact List.append_nil _

/-- New parameters come right behind those of the first list. -/
theorem parameters_grown {i : Nat} {a : Attribute} {listed : List Entry}
    (h : FirstList config.derivePath d.attrs i a listed) (wanted : List Entry) :
    (namespaceParameters d.attrs config.derivePath).value =
      listed ++ (namespaceParameters (d.attrs.drop (i + 1)) config.derivePath).value ∧
    (namespaceParameters (grown config wanted d).attrs config.derivePath).value =
      listed ++ wanted ++ (namespaceParameters (d.attrs.drop (i + 1)) config.derivePath).value := by
  -- Nothing in front of the first list has parameters, so only what replaces it matters.
  have hsplit : ∀ b fs, b.Lists config.derivePath fs →
      (namespaceParameters (d.attrs.take i ++ b :: d.attrs.drop (i + 1)) config.derivePath).value =
        fs ++ (namespaceParameters (d.attrs.drop (i + 1)) config.derivePath).value := by
    intro b fs hb
    rw [Lookup.value_namespaceParameters_append, Lookup.value_namespaceParameters_of_noList h.noList_take,
      Lookup.value_namespaceParameters_of_lists hb, List.nil_append]
  constructor
  · rw [← hsplit a listed h.lists, ← h.eq_split]
  · rw [grown_of_firstList h, h.set_eq_split, hsplit _ _ (withEntries_lists h.lists _)]

theorem parameters_grown_of_noList (h : NoList config.derivePath d.attrs) (wanted : List Entry) :
    (namespaceParameters (grown config wanted d).attrs config.derivePath).value = wanted := by
  rw [grown_of_noList h, Lookup.value_namespaceParameters_append, Lookup.value_namespaceParameters_of_noList h,
    Lookup.value_namespaceParameters_of_lists (newList_lists config wanted)]
  simp [Lookup.value_namespaceParameters, seen]

/-- What lookups see of a merge that succeeds. In every namespace but that of the derives all answers are as
before. There, the requested entries come right behind those of the first list, or are all there is if there
was no list; and so do the parameters that they have for any tag. -/
theorem merge_seen_by_lookups (config : Config) (requests : List Request) (d d' : Declaration)
    (h : (merge config requests d).value = .ok d') :
    (∀ (ns : Path) (q : Query), ns ≠ config.derivePath → q.About ns →
      (q.run d'.attrs).value = (q.run d.attrs).value) ∧
    ∃ wanted, Reads requests wanted ∧
      (∀ i a listed, FirstList config.derivePath d.attrs i a listed →
        let later := (namespaceParameters (d.attrs.drop (i + 1)) config.derivePath).value
        (namespaceParameters d.attrs config.derivePath).value = listed ++ later ∧
        (namespaceParameters d'.attrs config.derivePath).value = listed ++ wanted ++ later ∧
        ∀ tag,
          (findTag d.attrs config.derivePath tag).value =
            listed.flatMap (·.under tag) ++ later.flatMap (·.under tag) ∧
          (findTag d'.attrs config.derivePath tag).value =
            listed.flatMap (·.under tag) ++ wanted.flatMap (·.under tag) ++ later.flatMap (·.under tag)) ∧
      (NoList config.derivePath d.attrs →
        (namespaceParameters d.attrs config.derivePath).value = [] ∧
        (namespaceParameters d'.attrs config.derivePath).value = wanted ∧
        ∀ tag,
          (findTag d.attrs config.derivePath tag).value = [] ∧
          (findTag d'.attrs config.derivePath tag).value = wanted.flatMap (·.under tag)) := by
  obtain ⟨wanted, hreads, rfl⟩ := exists_grown_of_merge h
  refine ⟨?_, wanted, hreads, ?_, ?_⟩
  · intro ns q hns hq
    exact Query.value_run_congr hq (seen_grown hns wanted d)
  · intro i a listed hfirst later
    obtain ⟨hbefore, hafter⟩ := parameters_grown hfirst wanted
    refine ⟨hbefore, hafter, fun tag => ?_⟩
    rw [Lookup.value_findTag_eq_flatMap, Lookup.value_findTag_eq_flatMap, hbefore, hafter]
    simp only [List.flatMap_append]
    exact ⟨rfl, rfl⟩
  · intro hno
    have hbefore := Lookup.value_namespaceParameters_of_noList hno
    have hafter := parameters_grown_of_noList hno wanted
    refine ⟨hbefore, hafter, fun tag => ?_⟩
    rw [Lookup.value_findTag_eq_flatMap, Lookup.value_findTag_eq_flatMap, hbefore, hafter]
    exact ⟨rfl, rfl⟩

/-- An entry `on(name)`. -/
def onlyOn (name : Segment) : Entry := .list (.single ⟨"on", by decide⟩) [bare name]

/-- A struct with `#[derive = a b]`, `#[derive(Eq, on(X))]`, `#[on]` and `#[derive(on(Z))]`. -/
def listedTwice : Declaration where
  ident := "S"
  data := .struct (some .unit) true
  attrs :=
    [⟨Config.default.derivePath, .verbatim "= a b", none⟩,
      newList Config.default [bare ⟨"Eq", by decide⟩, onlyOn ⟨"X", by decide⟩],
      ⟨.single ⟨"on", by decide⟩, .metadata .marker, none⟩,
      newList Config.default [onlyOn ⟨"Z", by decide⟩]]
  loc := none

/-- `Debug` and `on(Y)` come between the entries of the two derive lists, and `Y` between `X` and `Z`. What is
found of `#[on]` stays. -/
theorem merge_seen_by_lookups_listedTwice :
    let on : Path := .single ⟨"on", by decide⟩
    let wanted := [bare ⟨"Debug", by decide⟩, onlyOn ⟨"Y", by decide⟩]
    let q : Query := .byNamespace (.path on)
    ∃ d', (merge Config.default (wanted.map .entry) listedTwice).value = .ok d' ∧
      on ≠ Config.default.derivePath ∧ (q.run d'.attrs).value = (q.run listedTwice.attrs).value ∧
      (namespaceParameters d'.attrs Config.default.derivePath).value =
        [bare ⟨"Eq", by decide⟩, onlyOn ⟨"X", by decide⟩, bare ⟨"Debug", by decide⟩,
          onlyOn ⟨"Y", by decide⟩, onlyOn ⟨"Z", by decide⟩] ∧
      (findTag d'.attrs Config.default.derivePath on).value =
        [bare ⟨"X", by decide⟩, bare ⟨"Y", by decide⟩, bare ⟨"Z", by decide⟩] := by
  intro on wanted q
  have hmerge : (merge Config.default (wanted.map .entry) listedTwice).value =
      .ok (grown Config.default wanted listedTwice) := rfl
  have hon : on ≠ Config.default.derivePath := by decide
  obtain ⟨hothers, wanted', hreads, hfirst, -⟩ := merge_seen_by_lookups _ _ _ _ hmerge
  obtain rfl := hreads.unique (reads_entries wanted)
  obtain ⟨-, hafter, htags⟩ := hfirst 1 _ _ (findList_eq_some_iff.1 rfl)
  exact ⟨_, hmerge, hon, hothers on q hon ⟨_, rfl, rfl⟩, hafter, (htags on).2⟩

end Derive

end DeriveKit
