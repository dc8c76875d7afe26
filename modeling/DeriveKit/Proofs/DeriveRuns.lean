import DeriveKit.Proofs.DeriveMerge
import DeriveKit.Proofs.FieldGrowth

/-!
# Derives over whole runs

Calls that add derives and calls that append fields, in any order, some of them refused. What one call
may do to the attributes is `Extends`: the first derive list only gets longer, where it stands, and
all other attributes stay. Changes of this kind add up, so `derives_stay_distinct` follows from one
call: no derive is ever listed twice.
-/
namespace DeriveKit.Derive

open Session

/-- A call that adds derives, different ones, to the list of `p`, or appends fields. -/
inductive Adds (p : Path) : Step → Prop
  | derives (requests : List Request) (config : Config) (hpath : config.derivePath = p)
      (hdistinct : ∀ wanted, Reads requests wanted → Entry.Distinct wanted) :
      Adds p (.appendDerives requests config)
  | fields (c : GrowthCall) : Adds p c.step

/-- The first list of `p` stays the first, at its index, and entries are added at its end only. All
other attributes stay as they are. -/
structure Extends (p : Path) (attrs attrs' : List Attribute) : Prop where
  first : ∀ i a es, FirstList p attrs i a es → ∃ a' es', FirstList p attrs' i a' es' ∧ es <+: es'
  others : ∀ j b, attrs[j]? = some b → (∀ a es, ¬ FirstList p attrs j a es) → attrs'[j]? = some b

/-! ## Changes of the attributes -/

namespace Extends

variable {p : Path}

theorem refl (p : Path) (attrs : List Attribute) : Extends p attrs attrs where
  first _ a es h := ⟨a, es, h, List.prefix_refl es⟩
  others _ _ h _ := h

/-- An attribute that is not the first list does not become it. -/
theorem not_first {attrs attrs' : List Attribute} (h : Extends p attrs attrs') {j : Nat} {b : Attribute}
    (hb : attrs[j]? = some b) (hj : ∀ a es, ¬ FirstList p attrs j a es) :
    ∀ a es, ¬ FirstList p attrs' j a es := by
  intro a' es' hfirst'
  rcases FirstList.exists_or_noList p attrs with ⟨i, a, es, hfirst⟩ | hno
  · -- The first list is elsewhere, and stays there.
    obtain ⟨a'', es'', hfirst'', -⟩ := h.first i a es hfirst
    obtain ⟨rfl, -, -⟩ := hfirst''.unique hfirst'
    exact hj a es hfirst
  · -- There was no list, and the attribute is what it was.
    have hb' := h.others j b hb hj
    rw [hfirst'.here] at hb'
    cases hb'
    exact hno _ (List.mem_of_getElem? hb) es' hfirst'.lists

theorem trans {attrs₁ attrs₂ attrs₃ : List Attribute} (h : Extends p attrs₁ attrs₂)
    (h' : Extends p attrs₂ attrs₃) : Extends p attrs₁ attrs₃ where
  first i a es hfirst := by
    obtain ⟨a₂, es₂, hfirst₂, hpre₂⟩ := h.first i a es hfirst
    obtain ⟨a₃, es₃, hfirst₃, hpre₃⟩ := h'.first i a₂ es₂ hfirst₂
    exact ⟨a₃, es₃, hfirst₃, hpre₂.trans hpre₃⟩
  others j b hb hj := h'.others j b (h.others j b hb hj) (h.not_first hb hj)

theorem of_grown (config : Config) (wanted : List Entry) (d : Declaration) :
    Extends config.derivePath d.attrs (grown config wanted d).attrs := by
  rcases FirstList.exists_or_noList config.derivePath d.attrs with ⟨i, a, listed, h⟩ | h
  · rw [grown_of_firstList h]
    constructor
    · intro i' a' es' h'
      obtain ⟨rfl, rfl, rfl⟩ := h.unique h'
      exact ⟨_, _, h.set (withEntries_lists h.lists _), List.prefix_append listed wanted⟩
    · intro j b hb hj
      have hne : i ≠ j := by
        rintro rfl
        exact hj a listed h
      rw [List.getElem?_set_ne hne]
      exact hb
  · rw [grown_of_noList h]
    constructor
    · intro i a es h'
      exact absurd h h'.not_noList
    · intro j b hb _
      rw [List.getElem?_append_left (List.getElem?_eq_some_iff.1 hb).1]
      exact hb

end Extends

/-! ## One call -/

section Call

variable {p : Path} {t : Step}

/-- A call that adds derives leaves the declaration as it was, or adds the entries of its requests,
which were not listed. -/
theorem after_derives (s : State) (requests : List Request) (config : Config) :
    (s.after (.appendDerives requests config)).declaration = s.declaration ∨
    ∃ wanted, Reads requests wanted ∧
      (∀ e ∈ wanted, e.isIn (firstEntries config.derivePath s.declaration.attrs) = false) ∧
      (s.after (.appendDerives requests config)).declaration = grown config wanted s.declaration := by
  rw [State.after, step_appendDerives]
  cases hread : readAll requests with
  | error err =>
    obtain ⟨text, htext⟩ := exists_rejects hread
    rw [merge_of_rejects htext]
    exact .inl rfl
  | ok wanted =>
    have hreads := readAll_eq_ok_iff.1 hread
    rw [merge_of_reads hreads]
    cases hmerge : (mergeEntries config wanted s.declaration).value with
    | error abort => exact .inl rfl
    | ok d =>
      obtain ⟨hnew, rfl⟩ := mergeEntries_eq_ok_iff.1 hmerge
      exact .inr ⟨wanted, hreads, hnew, rfl⟩

/-- What a call does to the attributes: nothing, or it adds different derives that were not listed. -/
theorem Adds.after_cases (h : Adds p t) (s : State) :
    (s.after t).declaration.attrs = s.declaration.attrs ∨
    ∃ config wanted, config.derivePath = p ∧ Entry.Distinct wanted ∧
      (∀ e ∈ wanted, e.isIn (firstEntries p s.declaration.attrs) = false) ∧
      (s.after t).declaration = grown config wanted s.declaration := by
  cases h with
  | fields c =>
    obtain ⟨data, hdata⟩ := GrowthCall.declaration_after s c
    rw [hdata]
    exact .inl rfl
  | derives requests config hpath hdistinct =>
    subst hpath
    rcases after_derives s requests config with hsame | ⟨wanted, hreads, hnew, hgrown⟩
    · exact .inl (congrArg Declaration.attrs hsame)
    · exact .inr ⟨config, wanted, rfl, hdistinct wanted hreads, hnew, hgrown⟩

theorem Adds.extends_after (h : Adds p t) (s : State) :
    Extends p s.declaration.attrs (s.after t).declaration.attrs := by
  rcases h.after_cases s with hsame | ⟨config, wanted, rfl, -, -, hgrown⟩
  · rw [hsame]
    exact Extends.refl p _
  · rw [hgrown]
    exact Extends.of_grown config wanted s.declaration

theorem Adds.distinct_after (h : Adds p t) {s : State}
    (hs : Entry.Distinct (firstEntries p s.declaration.attrs)) :
    Entry.Distinct (firstEntries p (s.after t).declaration.attrs) := by
  rcases h.after_cases s with hsame | ⟨config, wanted, rfl, hdistinct, hnew, hgrown⟩
  · rw [hsame]
    exact hs
  · obtain ⟨i, a, hfirst⟩ := firstList_grown config wanted s.declaration
    rw [hgrown, hfirst.firstEntries_eq]
    exact Entry.distinct_append hs hdistinct hnew

end Call

/-! ## Whole runs -/

theorem distinct_firstEntries_iff {p : Path} {attrs : List Attribute} :
    Entry.Distinct (firstEntries p attrs) ↔ ∀ i a es, FirstList p attrs i a es → Entry.Distinct es := by
  constructor
  · intro h i a es hfirst
    rwa [hfirst.firstEntries_eq] at h
  · intro h
    rcases FirstList.exists_or_noList p attrs with ⟨i, a, es, hfirst⟩ | hno
    · rw [hfirst.firstEntries_eq]
      exact h i a es hfirst
    · rw [hno.firstEntries_eq]
      exact List.Pairwise.nil

/-- In a run of calls on a declaration whose first derive list holds no entry twice, it never does.
Its entries at one point are a beginning of those at any later point, at the same index, and every
other attribute there was at the start stays where and as it was. -/
theorem derives_stay_distinct {p : Path} {s : State} {steps : List Step}
    (hsteps : ∀ t ∈ steps, Adds p t)
    (hstart : ∀ i a es, FirstList p s.declaration.attrs i a es → Entry.Distinct es) :
    (∀ n i a es, FirstList p (run s (steps.take n)).declaration.attrs i a es → Entry.Distinct es) ∧
    (∀ n m, n ≤ m → ∀ i a es, FirstList p (run s (steps.take n)).declaration.attrs i a es →
      ∃ a' es', FirstList p (run s (steps.take m)).declaration.attrs i a' es' ∧ es <+: es') ∧
    (∀ n j b, s.declaration.attrs[j]? = some b → (∀ a es, ¬ FirstList p s.declaration.attrs j a es) →
      (run s (steps.take n)).declaration.attrs[j]? = some b) := by
  have hextends : ∀ (s : State) (ts : List Step), (∀ t ∈ ts, t ∈ steps) →
      Extends p s.declaration.attrs (run s ts).declaration.attrs := by
    intro s ts hts
    exact run_change (R := fun s s' => Extends p s.declaration.attrs s'.declaration.attrs)
      (fun s => Extends.refl p s.declaration.attrs) (fun _ _ _ h h' => h.trans h')
      (fun s t ht => (hsteps t (hts t ht)).extends_after s) s
  refine ⟨fun n => ?_, fun n m hnm => ?_, fun n => ?_⟩
  · rw [← distinct_firstEntries_iff] at hstart ⊢
    exact run_invariant (P := fun s => Entry.Distinct (firstEntries p s.declaration.attrs))
      (fun s t ht hs => (hsteps t (List.mem_of_mem_take ht)).distinct_after hs) hstart
  · rw [run_take_of_le s steps hnm]
    exact (hextends _ _ fun t ht => List.mem_of_mem_take (List.mem_of_mem_drop ht)).first
  · exact (hextends s _ fun t ht => List.mem_of_mem_take ht).others

/-- `Debug` for `marked`, a field, `Clone`, which is listed already, and a text that is no path. -/
def markedRun : List Step :=
  [.appendDerives [.text "Debug", .text "serde.Serialize"] Config.default,
    GrowthCall.step ⟨.named, .fields [GrowthCall.plainField (some "a")]⟩,
    .appendDerives [.text "Clone"] Config.default,
    .appendDerives [.text "a:: "] Config.default]

theorem adds_markedRun : ∀ t ∈ markedRun, Adds Config.default.derivePath t := by
  have hdebug : Path.writtenSegments "Debug" = ["Debug"] := by decide +kernel
  have hserde : Path.writtenSegments "serde.Serialize" = ["serde", "Serialize"] := by decide +kernel
  have hclone : Path.writtenSegments "Clone" = ["Clone"] := by decide +kernel
  have hblank : Path.writtenSegments "a:: " = ["a", ""] := by decide +kernel
  have hread₁ : Reads [.text "Debug", .text "serde.Serialize"] [bare ⟨"Debug", by decide⟩,
      .path ⟨⟨"serde", by decide⟩, [⟨"Serialize", by decide⟩]⟩] :=
    reads_cons.2 ⟨read_text_of_ok (Path.parse_of_writtenSegments hdebug),
      reads_cons.2 ⟨read_text_of_ok (Path.parse_of_writtenSegments hserde), rfl⟩⟩
  have hread₃ : Reads [.text "Clone"] [bare ⟨"Clone", by decide⟩] :=
    reads_cons.2 ⟨read_text_of_ok (Path.parse_of_writtenSegments hclone), rfl⟩
  have hreject₄ : Rejects [.text "a:: "] "a:: " :=
    rejects_cons.2 (.inl ⟨rfl, _, Path.parse_of_writtenSegments hblank⟩)
  simp only [markedRun, List.forall_mem_cons]
  refine ⟨?_, .fields _, ?_, ?_, by simp⟩ <;> refine .derives _ _ rfl fun wanted h => ?_
  · rw [h.unique hread₁]
    decide
  · rw [h.unique hread₃]
    decide
  · exact absurd hreject₄ h.not_rejects

theorem firstList_marked :
    ∃ a, FirstList Config.default.derivePath marked.attrs 1 a [bare ⟨"Clone", by decide⟩] :=
  ⟨_, findList_eq_some_iff.1 rfl⟩

/-- The run on `marked`: at its end the derive list still begins with `Clone`, at index 1, and holds
nothing twice, and the marker stays at index 0. -/
theorem derives_stay_distinct_marked :
    (∀ t ∈ markedRun, Adds Config.default.derivePath t) ∧
    (∀ i a es, FirstList Config.default.derivePath marked.attrs i a es → Entry.Distinct es) ∧
    (∃ a es, FirstList Config.default.derivePath
      (run (State.start marked) (markedRun.take 4)).declaration.attrs 1 a es ∧
      [bare ⟨"Clone", by decide⟩] <+: es ∧ Entry.Distinct es) ∧
    (run (State.start marked) (markedRun.take 4)).declaration.attrs[0]? = marked.attrs[0]? := by
  obtain ⟨a, hfirst⟩ := firstList_marked
  have hstart : ∀ i a es, FirstList Config.default.derivePath marked.attrs i a es → Entry.Distinct es := by
    intro i a' es h
    obtain ⟨-, -, rfl⟩ := hfirst.unique h
    decide
  obtain ⟨hdistinct, hprefix, hothers⟩ :=
    derives_stay_distinct (s := State.start marked) adds_markedRun hstart
  obtain ⟨a', es, hlater, hpre⟩ := hprefix 0 4 (Nat.zero_le 4) 1 a _ hfirst
  refine ⟨adds_markedRun, hstart, ⟨a', es, hlater, hpre, hdistinct 4 1 a' es hlater⟩, ?_⟩
  refine hothers 4 0 _ rfl fun b es h => ?_
  obtain ⟨h01, -, -⟩ := hfirst.unique h
  cases h01

end DeriveKit.Derive
