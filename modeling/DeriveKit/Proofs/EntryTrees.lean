import DeriveKit.Proofs.AttributeReading

/-!
# Trees that stand for entries

The tokens of a path are trees, and the entry made of them is that path. With a group behind it it is a
list, and with `=` and a literal a path with a value. `Stands` holds what makes such trees one entry
among others, and `Stands.entries_cons` puts entries together at commas.
-/
namespace DeriveKit.Metadata

open DeriveKit.Grammar

variable {chars : Charset}

/-! ## Paths -/

theorem items_append (as bs : List TokenTree) : items chars (as ++ bs) = items chars as ++ items chars bs := by
  induction as with
  | nil => rfl
  | cons a as ih => rw [List.cons_append, items, ih, items, List.cons_append]

/-- What the steps of a path contribute. -/
def stepItems (tail : List Segment) : List Item := tail.flatMap fun s => [.pathSep, .name s]

/-- What a path contributes. -/
def pathItems (p : Path) : List Item := .name p.head :: stepItems p.tail

theorem leafItem_segment {t : Token} {s : Segment} (hkind : t.kind = .name) (htext : t.text = s.val) :
    leafItem chars t = .name s := by
  simp [leafItem, literal?, hkind, htext, Segment.of?, s.property]

theorem leafItem_pathSep {t : Token} (h : t.kind = .pathSep) : leafItem chars t = .pathSep := by
  simp [leafItem, literal?, h]

theorem leafItem_comma {t : Token} (h : t.kind = .comma) : leafItem chars t = .comma := by
  simp [leafItem, literal?, h]

theorem leafItem_equals {t : Token} (h : t.kind = .equals) : leafItem chars t = .equals := by
  simp [leafItem, literal?, h]

theorem items_steps {ts : List Token} {tail : List Segment} (h : Star IsStep ts tail) :
    items chars (ts.map .leaf) = stepItems tail := by
  induction h with
  | nil => rfl
  | cons h hs ih =>
    cases h with
    | sep hsep hs =>
      cases hs with
      | name hkind htext =>
        simp only [List.map_append, List.map_cons, List.map_nil, items_append, ih, items, item,
          leafItem_pathSep hsep, leafItem_segment hkind htext]
        rfl

theorem items_path {ts : List Token} {p : Path} (h : IsPath ts p) : items chars (ts.map .leaf) = pathItems p := by
  cases h with
  | mk hhead htail =>
    cases hhead with
    | name hkind htext =>
      simp only [List.map_append, List.map_cons, List.map_nil, items_append, items_steps htail, items, item,
        leafItem_segment hkind htext]
      rfl

theorem kind_of_path {ts : List Token} {p : Path} (h : IsPath ts p) :
    ∀ t ∈ ts, t.kind = .name ∨ t.kind = .pathSep := by
  cases h with
  | mk hhead htail =>
    cases hhead with
    | name hkind =>
      refine List.forall_mem_cons.2 ⟨.inl hkind, ?_⟩
      induction htail with
      | nil => exact fun t ht => absurd ht List.not_mem_nil
      | cons h _ ih =>
        cases h with
        | sep hsep hs =>
          cases hs with
          | name hkind => exact List.forall_mem_cons.2 ⟨.inr hsep, List.forall_mem_cons.2 ⟨.inl hkind, ih⟩⟩

theorem leafKinds_of_path {ts : List Token} {p : Path} (h : IsPath ts p) : ∀ t ∈ ts, t.kind ∈ leafKinds := by
  intro t ht
  rcases kind_of_path h t ht with hkind | hkind <;> simp [hkind, leafKinds]

theorem star_leaves {ts : List Token} (h : ∀ t ∈ ts, t.kind ∈ leafKinds) : Star IsTree ts (ts.map .leaf) := by
  induction ts with
  | nil => exact .nil
  | cons t ts ih =>
    obtain ⟨ht, hts⟩ := List.forall_mem_cons.1 h
    have hall : Star IsTree ([t] ++ ts) (.leaf t :: ts.map .leaf) := .cons (.leaf ht) (ih hts)
    exact hall

theorem trees_of_path {ts : List Token} {p : Path} (h : IsPath ts p) :
    ∃ trees, Star IsTree ts trees ∧ items chars trees = pathItems p :=
  ⟨ts.map .leaf, star_leaves (leafKinds_of_path h), items_path h⟩

/-- A path is taken up to what does not go on with it. -/
theorem takePath?_pathItems (p : Path) (more : List Item) (hmore : ∀ rest, more ≠ .pathSep :: rest) :
    takePath? (pathItems p ++ more) = some (p, more) := by
  obtain ⟨head, tail⟩ := p
  induction tail generalizing head with
  | nil =>
    simp only [pathItems, stepItems, List.flatMap_nil, List.singleton_append]
    rw [takePath?]
    · rfl
    · exact hmore
  | cons s tail ih =>
    have h : pathItems ⟨head, s :: tail⟩ ++ more =
        .name head :: .pathSep :: (pathItems ⟨s, tail⟩ ++ more) := by
      simp [pathItems, stepItems]
    rw [h, takePath?, ih s]
    rfl

/-! ## One entry -/

theorem entry_path (p : Path) : entry (pathItems p ++ []) = .ok (.path p) := by
  rw [entry, takePath?_pathItems p [] nofun]
  simp [pathItems]

/-- What a group after a path stands for is what is inside it, refusals included. -/
theorem entry_list (p : Path) (inner : Except Refusal (List Entry)) :
    entry (pathItems p ++ [.group inner]) = inner.map (.list p) := by
  rw [entry, takePath?_pathItems p [.group inner] nofun]
  simp [pathItems]

theorem entry_keyValue (p : Path) (value : Except Literal.Error Literal) :
    entry (pathItems p ++ [.equals, .literal value]) = (value.mapError .literal).map (.keyValue p) := by
  rw [entry, takePath?_pathItems p [.equals, .literal value] nofun]
  simp [pathItems]

theorem comma_not_mem_pathItems (p : Path) : Item.comma ∉ pathItems p := by
  simp [pathItems, stepItems]

/-- Items without a comma belong to one part. -/
theorem partsFrom_append {current xs : List Item} (hxs : Item.comma ∉ xs) (rest : List Item) :
    partsFrom current (xs ++ rest) = partsFrom (current ++ xs) rest := by
  induction xs generalizing current with
  | nil => rw [List.nil_append, List.append_nil]
  | cons x xs ih =>
    rw [List.mem_cons, not_or] at hxs
    rw [List.cons_append, partsFrom, ih hxs.2, List.append_assoc, List.singleton_append]
    exact fun h => hxs.1 h.symm

/-- Trees that stand for one entry among others: a part of its own, without a comma. -/
structure Stands (chars : Charset) (trees : List TokenTree) (e : Entry) : Prop where
  part : entry (items chars trees) = .ok e
  comma : Item.comma ∉ items chars trees
  something : items chars trees ≠ []

theorem Stands.of_items {trees : List TokenTree} {p : Path} {more : List Item} {e : Entry}
    (h : items chars trees = pathItems p ++ more) (he : entry (pathItems p ++ more) = .ok e)
    (hmore : Item.comma ∉ more) : Stands chars trees e where
  part := by rw [h, he]
  comma := by
    rw [h, List.mem_append, not_or]
    exact ⟨comma_not_mem_pathItems p, hmore⟩
  something := by
    rw [h]
    exact List.cons_ne_nil _ _

theorem Stands.path {trees : List TokenTree} {p : Path} (h : items chars trees = pathItems p) :
    Stands chars trees (.path p) :=
  .of_items (by rw [h, List.append_nil]) (entry_path p) (by simp)

theorem Stands.list {trees inner : List TokenTree} {p : Path} {es : List Entry}
    (h : items chars trees = pathItems p) (hinner : Metadata.entries chars inner = .ok es) :
    Stands chars (trees ++ [.group inner]) (.list p es) := by
  refine .of_items ?_ (entry_list p (.ok es)) (by simp)
  rw [← hinner, items_append, h]
  rfl

theorem Stands.keyValue {trees : List TokenTree} {p : Path} {eq t : Token} {v : Literal}
    (h : items chars trees = pathItems p) (heq : eq.kind = .equals) (ht : leafItem chars t = .literal (.ok v)) :
    Stands chars (trees ++ [.leaf eq, .leaf t]) (.keyValue p v) := by
  refine .of_items ?_ (entry_keyValue p (.ok v)) (by simp)
  rw [items_append, h, items, items, item, item, leafItem_equals heq, ht]
  rfl

theorem Stands.literal {t : Token} {v : Literal} (h : leafItem chars t = .literal (.ok v)) :
    Stands chars [.leaf t] (.literal v) where
  part := by rw [items, item, h]; rfl
  comma := by simp [items, item, h]
  something := List.cons_ne_nil _ _

/-! ## Lists of entries -/

/-- Trees without a comma are one part. -/
theorem entries_of_comma_not_mem {trees : List TokenTree} (hne : items chars trees ≠ [])
    (h : Item.comma ∉ items chars trees) : entries chars trees = (entry (items chars trees)).map fun e => [e] := by
  have hparts : parts (items chars trees) = [items chars trees] := by
    rw [parts, ← List.append_nil (items chars trees), partsFrom_append h, List.nil_append, partsFrom,
      if_neg (by simpa using hne), List.append_nil]
  rw [entries, hparts, entriesOf]
  cases entry (items chars trees) <;> rfl

/-- The first comma ends the first part. -/
theorem entries_append_comma {trees more : List TokenTree} {comma : Token} (h : Item.comma ∉ items chars trees)
    (hcomma : comma.kind = .comma) : entries chars (trees ++ .leaf comma :: more) =
      (entry (items chars trees)).bind fun e => (entries chars more).map fun es => e :: es := by
  have hparts : parts (items chars (trees ++ .leaf comma :: more)) =
      items chars trees :: parts (items chars more) := by
    rw [items_append, items, item, leafItem_comma hcomma, parts, partsFrom_append h, List.nil_append,
      partsFrom]
    rfl
  rw [entries, hparts, entriesOf, entries]
  cases entry (items chars trees) with
  | error e => rfl
  | ok e => cases entriesOf (parts (items chars more)) <;> rfl

theorem Stands.entries {trees : List TokenTree} {e : Entry} (h : Stands chars trees e) :
    entries chars trees = .ok [e] := by
  rw [entries_of_comma_not_mem h.something h.comma, h.part]
  rfl

theorem Stands.entries_cons {trees more : List TokenTree} {e : Entry} {es : List Entry} {comma : Token}
    (h : Stands chars trees e) (hcomma : comma.kind = .comma) (hmore : Metadata.entries chars more = .ok es) :
    Metadata.entries chars (trees ++ .leaf comma :: more) = .ok (e :: es) := by
  rw [entries_append_comma h.comma hcomma, h.part, hmore]
  rfl

end DeriveKit.Metadata
