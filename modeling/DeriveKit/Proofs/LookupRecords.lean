import DeriveKit.Proofs.MergeLookups

/-!
# What a lookup reports

A lookup reports each malformed attribute that it passes, as it passes it. Most lookups pass all attributes,
whatever comes of it. The search for a tag and the search for a derive list end at the first attribute that
holds what is sought, and report nothing behind it. `lookup_records` says for each of them what is reported.
All of it comes from how far a walk gets: `events_wellFormed` for the walk over everything, and
`events_first_append` for the walk that may end early.
-/
namespace DeriveKit

/-- What is reported when the attribute is passed. -/
def Attribute.skip? (a : Attribute) : Option Event :=
  match a.payload with
  | .verbatim text => some (.skipped a.path text)
  | .metadata _ => none

/-- What is reported when all of `attrs` are passed: once for each malformed one, in order. -/
def skips (attrs : List Attribute) : List Event := attrs.filterMap Attribute.skip?

/-- `front` stands before the first attribute that `holds`. -/
structure StandsBefore (holds : Attribute → Prop) (attrs front : List Attribute) : Prop where
  split : ∃ a back, attrs = front ++ a :: back ∧ holds a
  front : ∀ b ∈ front, ¬ holds b

theorem FirstList.standsBefore {p : Path} {attrs : List Attribute} {i : Nat} {a : Attribute} {es : List Entry}
    (h : FirstList p attrs i a es) : StandsBefore (fun a => ∃ es, a.Lists p es) attrs (attrs.take i) where
  split := ⟨a, attrs.drop (i + 1), h.eq_split, es, h.lists⟩
  front b hb := not_exists.2 (h.noList_take b hb)

theorem Logged.eq_mk {α : Type} {x : Logged α} {events : List Event} {value : α} (hevents : x.events = events)
    (hvalue : x.value = value) : x = ⟨events, value⟩ := by
  subst hevents hvalue
  rfl

/-! ## Walks -/

namespace Lookup

variable {β : Type} {f : Attribute → Meta → Option β} {front rest attrs : List Attribute} {ns tag : Path}

theorem skips_cons (a : Attribute) (attrs : List Attribute) : skips (a :: attrs) = skips [a] ++ skips attrs :=
  List.filterMap_append (l := [a])

theorem events_wellFormed (attrs : List Attribute) : (wellFormed attrs).events = skips attrs := by
  induction attrs with
  | nil => rfl
  | cons a attrs ih =>
    rw [skips_cons, ← ih]
    cases h : a.payload <;> simp [wellFormed, skips, Attribute.skip?, h]

theorem events_first_cons (f : Attribute → Meta → Option β) (a : Attribute) (attrs : List Attribute) :
    (first f (a :: attrs)).events = match made f a with
      | some _ => []
      | none => skips [a] ++ (first f attrs).events := by
  cases h : a.payload with
  | verbatim text => simp [first, made, skips, Attribute.skip?, h]
  | metadata m => cases hf : f a m <;> simp [first, made, skips, Attribute.skip?, h, hf]

/-- A search goes on behind attributes of which it makes nothing, and has reported the malformed ones by then. -/
theorem events_first_append (h : ∀ b ∈ front, made f b = none) (rest : List Attribute) :
    (first f (front ++ rest)).events = skips front ++ (first f rest).events := by
  induction front with
  | nil => rfl
  | cons a front ih =>
    obtain ⟨ha, hfront⟩ := List.forall_mem_cons.1 h
    rw [List.cons_append, events_first_cons, ha, ih hfront, skips_cons a front, List.append_assoc]

theorem events_first_of_none (h : ∀ a ∈ attrs, made f a = none) : (first f attrs).events = skips attrs := by
  have hend := events_first_append h []
  rwa [List.append_nil, show (first f []).events = [] from rfl, List.append_nil] at hend

section Sought

variable {holds : Attribute → Prop} (hmade : ∀ a, made f a = none ↔ ¬ holds a)
include hmade

/-- A search for what `holds` reports what stands before the first such attribute. -/
theorem events_first_of_standsBefore (h : StandsBefore holds attrs front) :
    (first f attrs).events = skips front := by
  obtain ⟨⟨a, back, rfl, ha⟩, hfront⟩ := h
  rw [events_first_append fun b hb => (hmade b).2 (hfront b hb), events_first_cons]
  cases hm : made f a with
  | none => exact absurd ha ((hmade a).1 hm)
  | some b => exact List.append_nil _

theorem isSome_first_of_standsBefore (h : StandsBefore holds attrs front) :
    (first f attrs).value.isSome = true := by
  obtain ⟨⟨a, back, rfl, ha⟩, -⟩ := h
  rw [Option.isSome_iff_ne_none]
  intro hnone
  have ham := first_eq_none_iff.1 hnone a (by simp)
  exact (hmade a).1 ham ha

end Sought

/-- A search for a property ends at some attribute, or there is none. -/
theorem exists_standsBefore (holds : Attribute → Prop) (attrs : List Attribute) :
    (∃ front, StandsBefore holds attrs front) ∨ ∀ a ∈ attrs, ¬ holds a := by
  induction attrs with
  | nil => exact .inr (by simp)
  | cons a attrs ih =>
    by_cases ha : holds a
    · exact .inl ⟨[], ⟨a, attrs, rfl, ha⟩, by simp⟩
    · rcases ih with ⟨front, ⟨b, back, rfl, hb⟩, hfront⟩ | hnone
      · exact .inl ⟨a :: front, ⟨b, back, rfl, hb⟩, List.forall_mem_cons.2 ⟨ha, hfront⟩⟩
      · exact .inr (List.forall_mem_cons.2 ⟨ha, hnone⟩)

/-! ## Lookups -/

theorem events_byNamespace (attrs : List Attribute) (ns : Path) : (byNamespace attrs ns).events = skips attrs := by
  simp [byNamespace, events_wellFormed]

theorem events_namespaceLists (attrs : List Attribute) (ns : Path) :
    (namespaceLists attrs ns).events = skips attrs := by
  simp [namespaceLists, events_wellFormed]

theorem events_findTag (attrs : List Attribute) (ns tag : Path) : (findTag attrs ns tag).events = skips attrs := by
  simp [findTag, events_namespaceLists]

/-- Also if there is not just one parameter, which shows only when all attributes are passed. -/
theorem events_namespaceParameter (config : Config) (attrs : List Attribute) (ns : Path) :
    (namespaceParameter config attrs ns).events = skips attrs := by
  simp only [namespaceParameter, Logged.events_bind, events_byNamespace]
  split
  · simp
  · split <;> simp
  · simp

theorem events_tagParameter (config : Config) (attrs : List Attribute) (ns tag : Path) :
    (tagParameter config attrs ns tag).events = skips attrs := by
  simp only [tagParameter, Logged.events_bind, events_findTag]
  split <;> simp

/-- The attribute carries a list of `ns` that holds the tag. -/
def HoldsTag (rule : TagMatch) (ns tag : Path) (a : Attribute) : Prop :=
  ∃ es, a.Lists ns es ∧ es.any (isTag rule tag) = true

theorem made_listIn_eq_some_iff {a : Attribute} {es : List Entry} :
    made (listIn? ns) a = some es ↔ a.Lists ns es := by
  unfold made Attribute.Lists
  cases a.payload with
  | verbatim text => simp
  | metadata m => rw [listIn?_eq_some_iff, Payload.metadata.injEq]

theorem made_eq_none_iff_of_isSome {a : Attribute} {holds : List Entry → Bool}
    (h : (made f a).isSome = (made (listIn? ns) a).any holds) :
    made f a = none ↔ ¬ ∃ es, a.Lists ns es ∧ holds es = true := by
  rw [← Option.not_isSome_iff_eq_none, h, Option.any_eq_true]
  simp only [made_listIn_eq_some_iff]

/-- The search for a tag ends at the first attribute that holds it. -/
theorem containsTag_cases (rule : TagMatch) (attrs : List Attribute) (ns tag : Path) :
    (∃ front, StandsBefore (HoldsTag rule ns tag) attrs front ∧
      containsTag rule attrs ns tag = ⟨skips front, true⟩) ∨
    (∀ a ∈ attrs, ¬ HoldsTag rule ns tag a) ∧ containsTag rule attrs ns tag = ⟨skips attrs, false⟩ := by
  have hmade := fun a => made_eq_none_iff_of_isSome (isSome_made_of_list (·.any (isTag rule tag)) ns a)
  rcases exists_standsBefore (HoldsTag rule ns tag) attrs with ⟨front, h⟩ | h
  · exact .inl ⟨front, h, Logged.eq_mk ((List.append_nil _).trans (events_first_of_standsBefore hmade h))
      (isSome_first_of_standsBefore hmade h)⟩
  · have hnone := fun a ha => (hmade a).2 (h a ha)
    exact .inr ⟨h, Logged.eq_mk ((List.append_nil _).trans (events_first_of_none hnone))
      (congrArg Option.isSome (first_eq_none_iff.2 hnone))⟩

end Lookup

/-! ## Merges -/

namespace Derive

variable {config : Config} {requests : List Request} {wanted : List Entry} {d : Declaration}

/-- The attribute carries a derive list. -/
def HoldsDerives (config : Config) (a : Attribute) : Prop := ∃ es, a.Lists config.derivePath es

theorem events_merge_of_unreadable {r : Request} {err : Path.Error} (hr : r ∈ requests)
    (herr : r.read = .error err) : (merge config requests d).events = [] := by
  cases hall : readAll requests with
  | error err' => simp [merge, hall]
  | ok wanted =>
    have hread : r.read ∈ wanted.map .ok := by
      rw [← readAll_eq_ok_iff.1 hall]
      exact List.mem_map_of_mem hr
    rw [herr] at hread
    simp at hread

section Found

variable {i : Nat} {a : Attribute} {listed : List Entry} (h : FirstList config.derivePath d.attrs i a listed)
include h

theorem events_findList_of_firstList : (findList config d.attrs).events = skips (d.attrs.take i) :=
  Lookup.events_first_of_standsBefore (fun _ => Lookup.made_listIn?_eq_none_iff.trans not_exists.symm)
    h.standsBefore

theorem events_mergeEntries_of_room (hnew : ∀ e ∈ wanted, e.isIn listed = false) :
    (mergeEntries config wanted d).events =
      skips (d.attrs.take i) ++ [.derivesExtended d.ident wanted.length] := by
  simp only [mergeEntries, Logged.events_bind, events_findList_of_firstList h, findList_eq_some_iff.2 h,
    isEmpty_overlap hnew, if_true]
  rfl

theorem events_mergeEntries_of_overlap (hold : ∃ e ∈ wanted, e.isIn listed = true) :
    (mergeEntries config wanted d).events = skips (d.attrs.take i) := by
  simp only [mergeEntries, Logged.events_bind, events_findList_of_firstList h, findList_eq_some_iff.2 h,
    isEmpty_overlap_eq_false hold]
  exact List.append_nil _

end Found

theorem events_mergeEntries_of_noList (h : NoList config.derivePath d.attrs) :
    (mergeEntries config wanted d).events = skips d.attrs ++
      [.derivesAdded (config.derivePath.renderWith config.separator) d.ident wanted.length] := by
  have hfind : (findList config d.attrs).events = skips d.attrs :=
    Lookup.events_first_of_none (Lookup.first_eq_none_iff.1 (findList_eq_none_iff.2 h))
  simp only [mergeEntries, Logged.events_bind, hfind, findList_eq_none_iff.2 h]
  rfl

/-- A merge reports as far as it searches, and once more if it succeeds. -/
theorem merge_cases (h : Reads requests wanted) :
    (∃ front, StandsBefore (HoldsDerives config) d.attrs front ∧
      ((∃ d', merge config requests d =
        ⟨skips front ++ [.derivesExtended d.ident wanted.length], .ok d'⟩) ∨
      ∃ failure, merge config requests d = ⟨skips front, .error failure⟩)) ∨
    (∀ a ∈ d.attrs, ¬ HoldsDerives config a) ∧ ∃ d', merge config requests d =
      ⟨skips d.attrs ++ [.derivesAdded (config.derivePath.renderWith config.separator) d.ident wanted.length],
        .ok d'⟩ := by
  rw [merge_of_reads h]
  rcases FirstList.exists_or_noList config.derivePath d.attrs with ⟨i, a, listed, hlist⟩ | hno
  · refine .inl ⟨d.attrs.take i, hlist.standsBefore, ?_⟩
    by_cases hnew : ∀ e ∈ wanted, e.isIn listed = false
    · exact .inl ⟨_, Logged.eq_mk (events_mergeEntries_of_room hlist hnew) (mergeEntries_of_room hlist hnew)⟩
    · have hold : ∃ e ∈ wanted, e.isIn listed = true := by simpa using hnew
      exact .inr ⟨_, Logged.eq_mk (events_mergeEntries_of_overlap hlist hold)
        (mergeEntries_of_overlap hlist hold)⟩
  · refine .inr ⟨fun a ha => not_exists.2 (hno a ha), ?_⟩
    exact ⟨_, Logged.eq_mk (events_mergeEntries_of_noList hno) (mergeEntries_of_noList hno)⟩

end Derive

/-! ## Questions -/

namespace Session.Query

variable {α : Type} {attrs : List Attribute} {q : Query} {g : Path.Given}
  {f : Path → Logged (Except Failure α)} {events : List Event}

/-- The paths that a question is given. -/
def paths : Query → List Path.Given
  | byNamespace ns | containsNamespace ns | namespaceLists ns | namespaceParameters ns
  | namespaceParameter ns _ | tagLists ns (.error _) => [ns]
  | findTag ns tag | containsTag ns tag _ | tagParameter ns tag _ | tagLists ns (.ok tag) => [ns, tag]
  | wellFormed | metadata _ => []

/-- The question is one lookup that passes all attributes. -/
def passesAll : Query → Bool
  | byNamespace _ | containsNamespace _ | namespaceLists _ | namespaceParameters _ | namespaceParameter ..
  | findTag .. | tagParameter .. => true
  | containsTag .. | tagLists .. | wellFormed | metadata _ => false

theorem events_withPath_of_ok (hread : ∃ p, g.read = .ok p) (h : ∀ p, (f p).events = events) :
    (withPath g f).events = events := by
  obtain ⟨p, hp⟩ := hread
  rw [withPath_of_read hp, h p]

theorem events_withPath_of_error {err : Path.Error} (h : g.read = .error err) : (withPath g f).events = [] := by
  unfold withPath
  rw [h]
  rfl

theorem events_withPath_eq_nil (h : ∀ p, (f p).events = []) : (withPath g f).events = [] := by
  cases hread : g.read with
  | ok p => exact events_withPath_of_ok ⟨p, hread⟩ h
  | error err => exact events_withPath_of_error hread

theorem events_answer (f : Logged α) (k : α → Answer) : (answer f k).events = f.events := List.append_nil _

theorem events_answerEntry (f : Logged (Except Abort (Option Entry))) : (answerEntry f).events = f.events :=
  List.append_nil _

theorem events_run_of_passesAll (hq : q.passesAll = true) (hread : ∀ g ∈ q.paths, ∃ p, g.read = .ok p) :
    (q.run attrs).events = skips attrs := by
  cases q with
  | containsTag | tagLists | wellFormed | metadata => cases hq
  | byNamespace | containsNamespace | namespaceLists | namespaceParameters | namespaceParameter =>
    apply events_withPath_of_ok (hread _ List.mem_cons_self)
    intro ns
    simp [events_answer, events_answerEntry, Lookup.containsNamespace, Lookup.namespaceParameters,
      Lookup.events_byNamespace, Lookup.events_namespaceLists, Lookup.events_namespaceParameter]
  | findTag | tagParameter =>
    obtain ⟨hns, htag⟩ := List.forall_mem_cons.1 hread
    apply events_withPath_of_ok hns
    intro ns
    apply events_withPath_of_ok (htag _ List.mem_cons_self)
    intro tag
    simp only [events_answer, events_answerEntry, Lookup.events_findTag, Lookup.events_tagParameter]

/-- Paths are read before the first attribute is looked at. -/
theorem events_run_of_unreadable {err : Path.Error}
    (hq : q.passesAll = true ∨ ∃ ns tag config, q = .containsTag ns tag config)
    (hg : g ∈ q.paths) (herr : g.read = .error err) : (q.run attrs).events = [] := by
  cases q with
  | tagLists | wellFormed | metadata => simp [passesAll] at hq
  | byNamespace | containsNamespace | namespaceLists | namespaceParameters | namespaceParameter =>
    rw [List.mem_singleton.1 hg] at herr
    exact events_withPath_of_error herr
  | findTag | tagParameter =>
    rcases List.mem_cons.1 hg with rfl | htag
    · exact events_withPath_of_error herr
    · rw [List.mem_singleton.1 htag] at herr
      exact events_withPath_eq_nil fun _ => events_withPath_of_error herr
  | containsTag =>
    -- Here the tag is read first.
    rcases List.mem_cons.1 hg with rfl | htag
    · exact events_withPath_eq_nil fun _ => events_withPath_of_error herr
    · rw [List.mem_singleton.1 htag] at herr
      exact events_withPath_of_error herr

/-- What is reported. A lookup that passes all attributes reports the malformed ones among them, in order and
once each, whatever it answers. The search for a tag reports those before the first attribute that holds it, or
all. So does a merge for the derive list that it searches, and if it succeeds, it reports that last. A path that
cannot be read is found out before anything is reported. -/
theorem lookup_records :
    (∀ (q : Query) attrs, q.passesAll = true → (∀ g ∈ q.paths, ∃ p, g.read = .ok p) →
      (q.run attrs).events = skips attrs) ∧
    (∀ givenNs givenTag ns tag config attrs, Path.Given.read givenNs = .ok ns → givenTag.read = .ok tag →
      let asked := run attrs (.containsTag givenNs givenTag config)
      (∃ front, StandsBefore (Lookup.HoldsTag config.tagMatch ns tag) attrs front ∧
        asked = ⟨skips front, .ok (.flag true)⟩) ∨
      (∀ a ∈ attrs, ¬ Lookup.HoldsTag config.tagMatch ns tag a) ∧ asked = ⟨skips attrs, .ok (.flag false)⟩) ∧
    (∀ config requests wanted d, Derive.Reads requests wanted →
      let merged := Derive.merge config requests d
      (∃ front, StandsBefore (Derive.HoldsDerives config) d.attrs front ∧
        ((∃ d', merged = ⟨skips front ++ [.derivesExtended d.ident wanted.length], .ok d'⟩) ∨
        ∃ failure, merged = ⟨skips front, .error failure⟩)) ∨
      (∀ a ∈ d.attrs, ¬ Derive.HoldsDerives config a) ∧ ∃ d', merged =
        ⟨skips d.attrs ++ [.derivesAdded (config.derivePath.renderWith config.separator) d.ident wanted.length],
          .ok d'⟩) ∧
    (∀ (q : Query) attrs, (q.passesAll = true ∨ ∃ ns tag config, q = .containsTag ns tag config) →
      (∃ g ∈ q.paths, ∃ err, g.read = .error err) → (q.run attrs).events = []) ∧
    ∀ config requests d, (∃ r ∈ requests, ∃ err, Derive.Request.read r = .error err) →
      (Derive.merge config requests d).events = [] := by
  refine ⟨?_, ?_, ?_, ?_, ?_⟩
  · intro q attrs hq hread
    exact events_run_of_passesAll hq hread
  · intro givenNs givenTag ns tag config attrs hns htag asked
    have hasked : asked = answer (Lookup.containsTag config.tagMatch attrs ns tag) .flag := by
      simp only [asked, run, withPath_of_read htag, withPath_of_read hns]
    rcases Lookup.containsTag_cases config.tagMatch attrs ns tag with ⟨front, hfront, h⟩ | ⟨hnone, h⟩
    · exact .inl ⟨front, hfront, by rw [hasked, h]; exact Logged.eq_mk (events_answer ..) rfl⟩
    · exact .inr ⟨hnone, by rw [hasked, h]; exact Logged.eq_mk (events_answer ..) rfl⟩
  · intro config requests wanted d hreads
    exact Derive.merge_cases hreads
  · rintro q attrs hq ⟨g, hg, err, herr⟩
    exact events_run_of_unreadable hq hg herr
  · rintro config requests d ⟨r, hr, err, herr⟩
    exact Derive.events_merge_of_unreadable hr herr

/-- Of two malformed attributes around `#[ns(flag)]` the search for `flag` reports the one in front. A merge into
`listedTwice` reports the malformed attribute in front of the first derive list and then what it did. -/
theorem lookup_records_around_flag :
    let ns : Path := .single ⟨"ns", by decide⟩
    let flag : Path := .single ⟨"flag", by decide⟩
    let attrs : List Attribute :=
      [⟨flag, .verbatim "= a b", none⟩, ⟨ns, .metadata (.list [.path flag]), none⟩, ⟨ns, .verbatim "(a b)", none⟩]
    let wanted := [Derive.bare ⟨"Debug", by decide⟩]
    (run attrs (.namespaceParameters (.path ns))).events = [.skipped flag "= a b", .skipped ns "(a b)"] ∧
    (∃ front, StandsBefore (Lookup.HoldsTag .anyEntry ns flag) attrs front ∧
      run attrs (.containsTag (.path ns) (.path flag) Config.default) = ⟨skips front, .ok (.flag true)⟩ ∧
      skips front = [.skipped flag "= a b"]) ∧
    (∃ front, StandsBefore (Derive.HoldsDerives Config.default) Derive.listedTwice.attrs front ∧
      (Derive.merge Config.default (wanted.map .entry) Derive.listedTwice).events =
        skips front ++ [.derivesExtended "S" 1] ∧
      skips front = [.skipped Config.default.derivePath "= a b"]) ∧
    (run attrs (.findTag (.path ns) (.text "a::"))).events = [] ∧
    (Derive.merge Config.default [.text "a::"] Derive.listedTwice).events = [] := by
  intro ns flag attrs wanted
  obtain ⟨hall, htag, hmerge, hunread, hrequest⟩ := lookup_records
  have hblank : Path.writtenSegments "a::" = ["a", ""] := by decide +kernel
  have hbad : (Path.Given.text "a::").read = .error (.emptySegment ["a", ""]) :=
    Path.parse_of_writtenSegments hblank
  refine ⟨hall _ attrs rfl ?_, ?_, ?_, hunread _ attrs (.inl rfl) ⟨_, ?_, _, hbad⟩,
    hrequest _ _ _ ⟨_, List.mem_singleton_self _, _, Derive.read_text_of_error hbad⟩⟩
  · intro g hg
    rw [List.mem_singleton.1 hg]
    exact ⟨ns, rfl⟩
  · rcases htag (.path ns) (.path flag) ns flag Config.default attrs rfl rfl with ⟨front, hfront, h⟩ | ⟨-, h⟩
    · exact ⟨front, hfront, h, (congrArg Logged.events h).symm⟩
    · cases congrArg Logged.value h
  · rcases hmerge Config.default _ _ Derive.listedTwice (Derive.reads_entries wanted) with
      ⟨front, hfront, ⟨d', h⟩ | ⟨failure, h⟩⟩ | ⟨-, d', h⟩
    · have hevents : [.skipped Config.default.derivePath "= a b"] ++ [.derivesExtended "S" 1] =
          skips front ++ [.derivesExtended "S" 1] := congrArg Logged.events h
      exact ⟨front, hfront, hevents, (List.append_cancel_right hevents).symm⟩
    · cases congrArg Logged.value h
    · cases congrArg Logged.events h
  · exact List.mem_cons_of_mem _ List.mem_cons_self

end Session.Query

end DeriveKit
