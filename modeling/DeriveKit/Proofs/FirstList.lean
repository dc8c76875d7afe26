import DeriveKit.Derive

/-!
# The first list of a path

A helper that adds to a list works on the first attribute that is well formed, has the path and
carries a list. `FirstList` says which one that is, without a search. The search finds it
(`findList_eq_some_iff`), there is at most one, and it stays the first when its entries are replaced,
or when it is added behind attributes that hold none.
-/
namespace DeriveKit

/-- The attribute is well formed, has the path `p` and carries the list `es`. -/
def Attribute.Lists (a : Attribute) (p : Path) (es : List Entry) : Prop :=
  a.path = p ∧ a.payload = .metadata (.list es)

/-- `a`, at index `i`, is the first attribute that carries a list of `p`; the list is `es`. -/
structure FirstList (p : Path) (attrs : List Attribute) (i : Nat) (a : Attribute)
    (es : List Entry) : Prop where
  here : attrs[i]? = some a
  lists : a.Lists p es
  first : ∀ j < i, ∀ b, attrs[j]? = some b → ∀ fs, ¬ b.Lists p fs

/-- No attribute carries a list of `p`. -/
def NoList (p : Path) (attrs : List Attribute) : Prop := ∀ a ∈ attrs, ∀ es, ¬ a.Lists p es

/-! ## The search -/

namespace Lookup

variable {β : Type} {f : Attribute → Meta → Option β}

/-- What `f` makes of an attribute; nothing if it is malformed. -/
def made (f : Attribute → Meta → Option β) (a : Attribute) : Option β :=
  match a.payload with
  | .metadata m => f a m
  | .verbatim _ => none

theorem value_first_cons (f : Attribute → Meta → Option β) (a : Attribute) (attrs : List Attribute) :
    (first f (a :: attrs)).value = match made f a with
      | some b => some (0, b)
      | none => (first f attrs).value.map fun (i, b) => (i + 1, b) := by
  cases h : a.payload with
  | verbatim text => simp [first, made, h]
  | metadata m => cases hf : f a m <;> simp [first, made, h, hf]

/-- The search stops at the first attribute of which `f` makes something. -/
theorem first_eq_some_iff {attrs : List Attribute} {i : Nat} {b : β} :
    (first f attrs).value = some (i, b) ↔
      ∃ a, attrs[i]? = some a ∧ made f a = some b ∧
        ∀ j < i, ∀ c, attrs[j]? = some c → made f c = none := by
  induction attrs generalizing i with
  | nil => simp [first]
  | cons a attrs ih =>
    rw [value_first_cons]
    cases hm : made f a with
    | some b' =>
      constructor
      · intro h
        cases h
        exact ⟨a, rfl, hm, by simp⟩
      · rintro ⟨c, hc, hb, hbefore⟩
        cases i with
        | zero => cases hc; rw [hm] at hb; cases hb; rfl
        | succ i =>
          have := hbefore 0 (Nat.succ_pos i) a rfl
          rw [hm] at this
          cases this
    | none =>
      cases i with
      | zero => simp [hm]
      | succ i =>
        simp only [Option.map_eq_some_iff, Prod.exists, Prod.mk.injEq, Nat.add_right_cancel_iff,
          List.getElem?_cons_succ, exists_eq_right_right, exists_eq_right, ih]
        -- The attribute in front is passed over, so the indices before `i` move by one.
        refine exists_congr fun c => and_congr_right fun _ => and_congr_right fun _ => ?_
        constructor
        · intro h j hj c hc
          cases j with
          | zero => cases hc; exact hm
          | succ j => exact h j (Nat.lt_of_succ_lt_succ hj) c hc
        · intro h j hj c hc
          exact h (j + 1) (Nat.succ_lt_succ hj) c hc

theorem first_eq_none_iff {attrs : List Attribute} :
    (first f attrs).value = none ↔ ∀ a ∈ attrs, made f a = none := by
  induction attrs with
  | nil => simp [first]
  | cons a attrs ih =>
    rw [value_first_cons, List.forall_mem_cons, ← ih]
    cases made f a <;> simp

theorem listIn?_eq_some_iff {p : Path} {a : Attribute} {m : Meta} {es : List Entry} :
    listIn? p a m = some es ↔ a.path = p ∧ m = .list es := by
  by_cases hp : a.path = p
  · cases m <;> simp [listIn?, hp, Meta.entries?]
  · simp [listIn?, hp]

/-- The attribute itself and the list it carries. -/
theorem made_listIn? {p : Path} {a b : Attribute} {es : List Entry} :
    made (fun a m => (listIn? p a m).map (a, ·)) a = some (b, es) ↔ b = a ∧ a.Lists p es := by
  cases h : a.payload with
  | verbatim text => simp [made, h, Attribute.Lists]
  | metadata m =>
    simp only [made, h, Option.map_eq_some_iff, listIn?_eq_some_iff, Prod.mk.injEq, Attribute.Lists,
      Payload.metadata.injEq]
    constructor
    · rintro ⟨_, hl, rfl, rfl⟩
      exact ⟨rfl, hl⟩
    · rintro ⟨rfl, hl⟩
      exact ⟨es, hl, rfl, rfl⟩

theorem made_listIn?_eq_none_iff {p : Path} {a : Attribute} :
    made (fun a m => (listIn? p a m).map (a, ·)) a = none ↔ ∀ es, ¬ a.Lists p es := by
  rw [Option.eq_none_iff_forall_ne_some]
  constructor
  · intro h es hl
    exact h (a, es) (made_listIn?.2 ⟨rfl, hl⟩)
  · rintro h ⟨b, es⟩ hm
    exact h es (made_listIn?.1 hm).2

/-- What a search for a list finds is the first list. -/
theorem first_listIn?_eq_some_iff {p : Path} {attrs : List Attribute} {i : Nat} {a : Attribute}
    {es : List Entry} :
    (first (fun a m => (listIn? p a m).map (a, ·)) attrs).value = some (i, a, es) ↔
      FirstList p attrs i a es := by
  rw [first_eq_some_iff]
  constructor
  · rintro ⟨b, hb, hm, hbefore⟩
    obtain ⟨rfl, hl⟩ := made_listIn?.1 hm
    exact ⟨hb, hl, fun j hj c hc => made_listIn?_eq_none_iff.1 (hbefore j hj c hc)⟩
  · rintro ⟨hb, hl, hbefore⟩
    exact ⟨a, hb, made_listIn?.2 ⟨rfl, hl⟩,
      fun j hj c hc => made_listIn?_eq_none_iff.2 (hbefore j hj c hc)⟩

theorem first_listIn?_eq_none_iff {p : Path} {attrs : List Attribute} :
    (first (fun a m => (listIn? p a m).map (a, ·)) attrs).value = none ↔ NoList p attrs := by
  rw [first_eq_none_iff]
  exact forall₂_congr fun _ _ => made_listIn?_eq_none_iff

end Lookup

namespace Derive

variable {config : Config} {attrs : List Attribute}

theorem findList_eq_some_iff {i : Nat} {a : Attribute} {es : List Entry} :
    (findList config attrs).value = some (i, a, es) ↔ FirstList config.derivePath attrs i a es :=
  Lookup.first_listIn?_eq_some_iff

theorem findList_eq_none_iff :
    (findList config attrs).value = none ↔ NoList config.derivePath attrs :=
  Lookup.first_listIn?_eq_none_iff

end Derive

/-! ## The first list among changing attributes -/

section Changes

variable {p : Path} {attrs : List Attribute} {i j : Nat} {a b : Attribute} {es fs : List Entry}

/-- Either some list of `p` is the first, or there is none. -/
theorem FirstList.exists_or_noList (p : Path) (attrs : List Attribute) :
    (∃ i a es, FirstList p attrs i a es) ∨ NoList p attrs := by
  cases h : (Lookup.first (fun a m => (Lookup.listIn? p a m).map (a, ·)) attrs).value with
  | none => exact .inr (Lookup.first_listIn?_eq_none_iff.1 h)
  | some found => exact .inl ⟨found.1, found.2.1, found.2.2, Lookup.first_listIn?_eq_some_iff.1 h⟩

theorem FirstList.lt_length (h : FirstList p attrs i a es) : i < attrs.length :=
  (List.getElem?_eq_some_iff.1 h.here).1

theorem FirstList.unique (h : FirstList p attrs i a es) (h' : FirstList p attrs j b fs) :
    i = j ∧ a = b ∧ es = fs := by
  have hij : i = j := by
    rcases Nat.lt_trichotomy i j with hlt | heq | hlt
    · exact absurd h.lists (h'.first i hlt a h.here es)
    · exact heq
    · exact absurd h'.lists (h.first j hlt b h'.here fs)
  subst hij
  have hab : a = b := by simpa [h.here] using h'.here
  subst hab
  have hes := h.lists.2.symm.trans h'.lists.2
  cases hes
  exact ⟨rfl, rfl, rfl⟩

theorem FirstList.not_noList (h : FirstList p attrs i a es) : ¬ NoList p attrs := by
  intro hno
  exact hno a (List.mem_of_getElem? h.here) es h.lists

/-- Replaced by another list of `p`, the first list stays the first. -/
theorem FirstList.set (h : FirstList p attrs i a es) (hb : b.Lists p fs) :
    FirstList p (attrs.set i b) i b fs where
  here := List.getElem?_set_self h.lt_length
  lists := hb
  first j hj c hc := by
    rw [List.getElem?_set_ne (Nat.ne_of_gt hj)] at hc
    exact h.first j hj c hc

/-- Behind attributes without a list of `p`, such a list is the first. -/
theorem NoList.firstList_append (h : NoList p attrs) (hb : b.Lists p fs) :
    FirstList p (attrs ++ [b]) attrs.length b fs where
  here := by simp
  lists := hb
  first j hj c hc := by
    rw [List.getElem?_append_left hj] at hc
    exact h c (List.mem_of_getElem? hc)

end Changes

/-! ## Its entries -/

/-- The entries of the first list of `p`; there are none without such a list. -/
def firstEntries (p : Path) (attrs : List Attribute) : List Entry :=
  (attrs.findSome? fun a => if a.path = p then a.entries? else none).getD []

theorem Attribute.ite_entries?_eq_some_iff {a : Attribute} {p : Path} {es : List Entry} :
    (if a.path = p then a.entries? else none) = some es ↔ a.Lists p es := by
  obtain ⟨path, payload, loc⟩ := a
  by_cases hp : path = p
  · cases payload with
    | verbatim text => simp [hp, entries?, Lists]
    | metadata m => cases m <;> simp [hp, entries?, Meta.entries?, Lists]
  · simp [hp, Lists]

theorem Attribute.ite_entries?_eq_none_iff {a : Attribute} {p : Path} :
    (if a.path = p then a.entries? else none) = none ↔ ∀ es, ¬ a.Lists p es := by
  rw [Option.eq_none_iff_forall_ne_some]
  exact forall_congr' fun es => not_congr ite_entries?_eq_some_iff

theorem NoList.firstEntries_eq {p : Path} {attrs : List Attribute} (h : NoList p attrs) :
    firstEntries p attrs = [] := by
  have hnone : attrs.findSome? (fun a => if a.path = p then a.entries? else none) = none :=
    List.findSome?_eq_none_iff.2 fun a ha => Attribute.ite_entries?_eq_none_iff.2 (h a ha)
  rw [firstEntries, hnone]
  rfl

theorem FirstList.firstEntries_eq {p : Path} {attrs : List Attribute} {i : Nat} {a : Attribute}
    {es : List Entry} (h : FirstList p attrs i a es) : firstEntries p attrs = es := by
  induction attrs generalizing i with
  | nil => exact absurd h.lt_length (Nat.not_lt_zero i)
  | cons b attrs ih =>
    cases i with
    | zero =>
      have hb : b = a := by simpa using h.here
      subst hb
      rw [firstEntries, List.findSome?_cons, Attribute.ite_entries?_eq_some_iff.2 h.lists]
      rfl
    | succ i =>
      -- The attribute in front carries no list of `p`, so the rest is searched.
      have hb := Attribute.ite_entries?_eq_none_iff.2 (h.first 0 (Nat.succ_pos i) b rfl)
      rw [firstEntries, List.findSome?_cons, hb]
      exact ih ⟨by simpa using h.here, h.lists, fun j hj c hc =>
        h.first (j + 1) (Nat.succ_lt_succ hj) c (by simpa using hc)⟩

end DeriveKit
