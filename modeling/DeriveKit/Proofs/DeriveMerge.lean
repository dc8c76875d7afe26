import DeriveKit.Proofs.Equality
import DeriveKit.Proofs.FirstList
import DeriveKit.Proofs.LiteralText
import DeriveKit.Session.Run

/-!
# Merging derives

A merge meets one of four situations: a request is no path, the first derive list holds a request
already, it holds none of them, or there is no derive list. `merge_situation` says that exactly one
of them arises and what the merge then does. Requests that are listed already are all named, unless
one is an integer that is too long to be written (`Refused`). `merge_batch` compares merges one after
another with one merge of all requests: what the second merge meets is the list that the first one
made or extended.
-/
namespace DeriveKit.Derive

variable {config : Config} {requests : List Request} {d : Declaration} {wanted : List Entry}

/-! ## Reading the requests -/

/-- Every request is read, and together they are `wanted`. -/
def Reads (requests : List Request) (wanted : List Entry) : Prop :=
  requests.map Request.read = wanted.map .ok

/-- `text` is a request that is no path, and the requests before it are read. -/
def Rejects (requests : List Request) (text : String) : Prop :=
  ∃ before after, requests = before ++ .text text :: after ∧
    (∀ r ∈ before, ∃ e, r.read = .ok e) ∧ ∃ err, Path.parse text = .error err

theorem reads_cons {r : Request} {rs : List Request} {w : Entry} {ws : List Entry} :
    Reads (r :: rs) (w :: ws) ↔ r.read = .ok w ∧ Reads rs ws := by
  simp [Reads]

theorem rejects_cons {r : Request} {rs : List Request} {text : String} :
    Rejects (r :: rs) text ↔
      (r = .text text ∧ ∃ err, Path.parse text = .error err) ∨
        ((∃ e, r.read = .ok e) ∧ Rejects rs text) := by
  constructor
  · rintro ⟨before, after, hrs, hbefore, herr⟩
    cases before with
    | nil =>
      cases hrs
      exact .inl ⟨rfl, herr⟩
    | cons b before =>
      cases hrs
      exact .inr ⟨hbefore r List.mem_cons_self, before, after, rfl,
        fun x hx => hbefore x (List.mem_cons_of_mem r hx), herr⟩
  · rintro (⟨rfl, herr⟩ | ⟨hr, before, after, rfl, hbefore, herr⟩)
    · exact ⟨[], rs, rfl, by simp, herr⟩
    · exact ⟨r :: before, after, rfl, List.forall_mem_cons.2 ⟨hr, hbefore⟩, herr⟩

theorem readAll_cons (r : Request) (rs : List Request) :
    readAll (r :: rs) = match r.read, readAll rs with
      | .ok e, .ok es => .ok (e :: es)
      | .ok _, .error err => .error err
      | .error err, _ => .error err := by
  rw [readAll]
  cases r.read <;> cases readAll rs <;> rfl

theorem readAll_eq_ok_iff : readAll requests = .ok wanted ↔ Reads requests wanted := by
  induction requests generalizing wanted with
  | nil => simp [readAll, Reads, eq_comm]
  | cons r rs ih =>
    rw [readAll_cons]
    cases wanted with
    | nil => cases r.read <;> cases readAll rs <;> simp [Reads]
    | cons w ws =>
      rw [reads_cons, ← ih]
      cases r.read <;> cases readAll rs <;> simp

theorem read_text_of_ok {text : String} {p : Path} (h : Path.parse text = .ok p) :
    (Request.text text).read = .ok (.path p) := by
  rw [Request.read, h]
  rfl

theorem read_text_of_error {text : String} {err : Path.Error} (h : Path.parse text = .error err) :
    (Request.text text).read = .error err := by
  rw [Request.read, h]
  rfl

/-- Reading fails for the first text that is no path, and says which part of it is blank. -/
theorem readAll_of_rejects {text : String} (h : Rejects requests text) :
    readAll requests = .error (.emptySegment (Path.writtenSegments text)) := by
  induction requests with
  | nil => simp [Rejects] at h
  | cons r rs ih =>
    rw [readAll_cons]
    rcases rejects_cons.1 h with ⟨rfl, err, herr⟩ | ⟨⟨e, he⟩, hrs⟩
    · rw [read_text_of_error herr, (Path.parse_eq_error_iff.1 herr).2]
    · rw [he, ih hrs]

theorem exists_rejects {err : Path.Error} (h : readAll requests = .error err) :
    ∃ text, Rejects requests text := by
  induction requests generalizing err with
  | nil => simp [readAll] at h
  | cons r rs ih =>
    rw [readAll_cons] at h
    cases hr : r.read with
    | error err' =>
      cases r with
      | entry e => cases hr
      | text text =>
        have herr : Path.parse text = .error err' := by
          cases hp : Path.parse text with
          | error err => rw [read_text_of_error hp] at hr; rw [Except.error.inj hr]
          | ok p => rw [read_text_of_ok hp] at hr; cases hr
        exact ⟨text, rejects_cons.2 (.inl ⟨rfl, err', herr⟩)⟩
    | ok e =>
      cases hrs : readAll rs with
      | error err' =>
        obtain ⟨text, ht⟩ := ih hrs
        exact ⟨text, rejects_cons.2 (.inr ⟨⟨e, hr⟩, ht⟩)⟩
      | ok es => simp [hr, hrs] at h

theorem Rejects.unique {text text' : String} (h : Rejects requests text) (h' : Rejects requests text') :
    text = text' := by
  induction requests with
  | nil => simp [Rejects] at h
  | cons r rs ih =>
    rcases rejects_cons.1 h with ⟨rfl, err, herr⟩ | ⟨⟨e, he⟩, hrs⟩ <;>
      rcases rejects_cons.1 h' with ⟨hr, err', herr'⟩ | ⟨⟨e', he'⟩, hrs'⟩
    · exact Request.text.inj hr
    · rw [read_text_of_error herr] at he'
      cases he'
    · rw [hr, read_text_of_error herr'] at he
      cases he
    · exact ih hrs hrs'

theorem Reads.unique {wanted' : List Entry} (h : Reads requests wanted) (h' : Reads requests wanted') :
    wanted = wanted' := by
  have heq := (readAll_eq_ok_iff.2 h).symm.trans (readAll_eq_ok_iff.2 h')
  exact Except.ok.inj heq

theorem Reads.not_rejects {text : String} (h : Reads requests wanted) : ¬ Rejects requests text := by
  intro hrej
  have heq := (readAll_eq_ok_iff.2 h).symm.trans (readAll_of_rejects hrej)
  cases heq

/-! ## How a merge is refused -/

/-- What is said about entries that are listed already: the names of all of them, in their order, or
nothing but that there are too many digits, if one of them is an integer that cannot be written. -/
inductive Refused (config : Config) (es : List Entry) (loc : Option Position) : Failure → Prop
  | named {names : List String} (h : es.map (format? config) = names.map some) :
      Refused config es loc (.abort ⟨.derivesListed names, loc⟩)
  | nameless {n : Int} (h : .literal (.int n) ∈ es) (hn : Nat.pow 10 Text.maxDigits ≤ n.natAbs) :
      Refused config es loc .tooManyDigits

section Refusal

variable {es : List Entry} {loc : Option Position}

theorem format?_eq_none_iff {e : Entry} :
    format? config e = none ↔
      ∃ n, e = .literal (.int n) ∧ Nat.pow 10 Text.maxDigits ≤ n.natAbs := by
  constructor
  · intro h
    cases e with
    | literal v =>
      obtain ⟨n, rfl, hn⟩ := Literal.render?_eq_none_iff.1 h
      exact ⟨n, rfl, hn⟩
    | path | list | keyValue => cases h
  · rintro ⟨n, rfl, hn⟩
    exact Literal.render?_eq_none_iff.2 ⟨n, rfl, hn⟩

theorem formatAll?_eq_some_iff {names : List String} :
    formatAll? config es = some names ↔ es.map (format? config) = names.map some := by
  induction es generalizing names with
  | nil => cases names <;> simp [formatAll?]
  | cons e es ih =>
    cases names with
    | nil => cases h : format? config e <;> cases h' : formatAll? config es <;> simp [formatAll?, h, h']
    | cons name names =>
      rw [List.map_cons, List.map_cons, List.cons.injEq, ← ih]
      cases h : format? config e <;> cases h' : formatAll? config es <;> simp [formatAll?, h, h']

theorem formatAll?_eq_none_iff :
    formatAll? config es = none ↔
      ∃ n, .literal (.int n) ∈ es ∧ Nat.pow 10 Text.maxDigits ≤ n.natAbs := by
  have hexists : formatAll? config es = none ↔ ∃ e ∈ es, format? config e = none := by
    induction es with
    | nil => simp [formatAll?]
    | cons e es ih =>
      simp only [List.mem_cons, exists_eq_or_imp, ← ih]
      cases h : format? config e <;> cases h' : formatAll? config es <;> simp [formatAll?, h, h']
  rw [hexists]
  simp only [format?_eq_none_iff]
  constructor
  · rintro ⟨_, he, n, rfl, hn⟩
    exact ⟨n, he, hn⟩
  · rintro ⟨n, he, hn⟩
    exact ⟨_, he, n, rfl, hn⟩

theorem refused_refusal (config : Config) (es : List Entry) (loc : Option Position) :
    Refused config es loc (refusal config es loc) := by
  unfold refusal
  split
  next names h => exact .named (formatAll?_eq_some_iff.1 h)
  next h =>
    obtain ⟨n, hmem, hn⟩ := formatAll?_eq_none_iff.1 h
    exact .nameless hmem hn

/-- There is one refusal for entries at a place. -/
theorem Refused.eq_refusal {e : Failure} (h : Refused config es loc e) : e = refusal config es loc := by
  cases h with
  | named h => rw [refusal, formatAll?_eq_some_iff.2 h]
  | nameless h hn => rw [refusal, formatAll?_eq_none_iff.2 ⟨_, h, hn⟩]

end Refusal

/-! ## What a merge does -/

/-- The attribute with other entries, at the same place. -/
def withEntries (a : Attribute) (es : List Entry) : Attribute := ⟨a.path, .metadata (.list es), a.loc⟩

/-- A derive list that was not there before. -/
def newList (config : Config) (es : List Entry) : Attribute :=
  ⟨config.derivePath, .metadata (.list es), none⟩

theorem withEntries_lists {a : Attribute} {p : Path} {es : List Entry} (h : a.Lists p es)
    (fs : List Entry) : (withEntries a fs).Lists p fs :=
  ⟨h.1, rfl⟩

theorem newList_lists (config : Config) (es : List Entry) :
    (newList config es).Lists config.derivePath es :=
  ⟨rfl, rfl⟩

/-- The declaration with entries added to its first derive list, or in a list of their own. -/
def grown (config : Config) (wanted : List Entry) (d : Declaration) : Declaration :=
  match (findList config d.attrs).value with
  | some (i, a, listed) => { d with attrs := d.attrs.set i (withEntries a (listed ++ wanted)) }
  | none => { d with attrs := d.attrs ++ [newList config wanted] }

section Growing

variable {i : Nat} {a : Attribute} {listed : List Entry}

theorem grown_of_firstList (h : FirstList config.derivePath d.attrs i a listed) :
    grown config wanted d = { d with attrs := d.attrs.set i (withEntries a (listed ++ wanted)) } := by
  rw [grown, findList_eq_some_iff.2 h]

theorem grown_of_noList (h : NoList config.derivePath d.attrs) :
    grown config wanted d = { d with attrs := d.attrs ++ [newList config wanted] } := by
  rw [grown, findList_eq_none_iff.2 h]

theorem isEmpty_overlap (hnew : ∀ e ∈ wanted, e.isIn listed = false) :
    (wanted.filter (·.isIn listed)).isEmpty = true := by
  rw [List.isEmpty_iff, List.filter_eq_nil_iff]
  simpa using hnew

theorem isEmpty_overlap_eq_false (hold : ∃ e ∈ wanted, e.isIn listed = true) :
    (wanted.filter (·.isIn listed)).isEmpty = false := by
  obtain ⟨e, he, hin⟩ := hold
  exact List.isEmpty_eq_false_iff.2 (List.ne_nil_of_mem (List.mem_filter.2 ⟨he, hin⟩))

/-- A merge of entries that the first list does not hold adds them to it. -/
theorem mergeEntries_of_room (h : FirstList config.derivePath d.attrs i a listed)
    (hnew : ∀ e ∈ wanted, e.isIn listed = false) :
    (mergeEntries config wanted d).value = .ok (grown config wanted d) := by
  rw [grown_of_firstList h]
  simp only [mergeEntries, Logged.value_bind, findList_eq_some_iff.2 h, isEmpty_overlap hnew, if_true]
  rfl

/-- Without a list a merge adds one. -/
theorem mergeEntries_of_noList (h : NoList config.derivePath d.attrs) :
    (mergeEntries config wanted d).value = .ok (grown config wanted d) := by
  rw [grown_of_noList h]
  simp only [mergeEntries, Logged.value_bind, findList_eq_none_iff.2 h]
  rfl

/-- A merge is refused for the entries that are listed already. -/
theorem mergeEntries_of_overlap (h : FirstList config.derivePath d.attrs i a listed)
    (hold : ∃ e ∈ wanted, e.isIn listed = true) :
    (mergeEntries config wanted d).value =
      .error (refusal config (wanted.filter (·.isIn listed)) a.loc) := by
  simp only [mergeEntries, Logged.value_bind, findList_eq_some_iff.2 h, isEmpty_overlap_eq_false hold]
  rfl

theorem mergeEntries_eq_ok_iff {d' : Declaration} :
    (mergeEntries config wanted d).value = .ok d' ↔
      (∀ e ∈ wanted, e.isIn (firstEntries config.derivePath d.attrs) = false) ∧
        d' = grown config wanted d := by
  rcases FirstList.exists_or_noList config.derivePath d.attrs with ⟨i, a, listed, h⟩ | h
  · rw [h.firstEntries_eq]
    by_cases hnew : ∀ e ∈ wanted, e.isIn listed = false
    · rw [mergeEntries_of_room h hnew, Except.ok.injEq, and_iff_right hnew]
      exact eq_comm
    · rw [mergeEntries_of_overlap h (by simpa using hnew)]
      constructor
      · intro hok
        cases hok
      · intro hok
        exact absurd hok.1 hnew
  · have hnew : ∀ e ∈ wanted, e.isIn [] = false := fun _ _ => rfl
    rw [h.firstEntries_eq, mergeEntries_of_noList h, Except.ok.injEq, and_iff_right hnew]
    exact eq_comm

end Growing

theorem merge_of_reads (h : Reads requests wanted) :
    merge config requests d = mergeEntries config wanted d := by
  simp [merge, readAll_eq_ok_iff.2 h]

theorem merge_of_rejects {text : String} (h : Rejects requests text) :
    (merge config requests d).value =
      .error (.path (.emptySegment (Path.writtenSegments text))) := by
  simp [merge, readAll_of_rejects h]

theorem step_appendDerives (s : Session.State) :
    (Session.step s (.appendDerives requests config)).value =
      match (merge config requests s.declaration).value with
      | .ok d => ({ s with declaration := d }, .ok .none)
      | .error e => (s, .error e) := by
  simp only [Session.step, Logged.value_bind]
  cases (merge config requests s.declaration).value <;> rfl

/-! ## The four situations -/

/-- What a merge meets. -/
inductive Situation where
  /-- `text` is the first request that is no path. -/
  | unreadable (text : String)
  /-- The first derive list holds some of the entries that are wanted. -/
  | overlap (i : Nat) (a : Attribute) (listed wanted : List Entry)
  /-- The first derive list holds none of the entries that are wanted. -/
  | room (i : Nat) (a : Attribute) (listed wanted : List Entry)
  /-- There is no derive list. -/
  | noList (wanted : List Entry)

namespace Situation

/-- When a situation arises. -/
def Arises (config : Config) (requests : List Request) (attrs : List Attribute) : Situation → Prop
  | unreadable text => Rejects requests text
  | overlap i a listed wanted =>
    Reads requests wanted ∧ FirstList config.derivePath attrs i a listed ∧
      ∃ e ∈ wanted, ∃ l ∈ listed, l.same e = true
  | room i a listed wanted =>
    Reads requests wanted ∧ FirstList config.derivePath attrs i a listed ∧
      ∀ e ∈ wanted, ∀ l ∈ listed, l.same e = false
  | noList wanted => Reads requests wanted ∧ NoList config.derivePath attrs

/-- What comes of a situation: the sessions before and after the merge, and the answer. -/
def Leads (config : Config) (s s' : Session.State) (answer : Except Failure Session.Answer) :
    Situation → Prop
  | unreadable text =>
    s' = s ∧ answer = .error (.path (.emptySegment (Path.writtenSegments text)))
  | overlap _ a listed wanted =>
    s' = s ∧ ∃ e, answer = .error e ∧ Refused config (wanted.filter (·.isIn listed)) a.loc e
  | room i a listed wanted =>
    answer = .ok .none ∧ ∃ attrs, s' = { s with declaration := { s.declaration with attrs } } ∧
      attrs.length = s.declaration.attrs.length ∧
      (∀ j, j ≠ i → attrs[j]? = s.declaration.attrs[j]?) ∧
      attrs[i]? = some ⟨a.path, .metadata (.list (listed ++ wanted)), a.loc⟩
  | noList wanted =>
    answer = .ok .none ∧ ∃ attrs, s' = { s with declaration := { s.declaration with attrs } } ∧
      attrs = s.declaration.attrs ++ [⟨config.derivePath, .metadata (.list wanted), none⟩]

variable {attrs : List Attribute} {t u : Situation}

theorem exists_arises (config : Config) (requests : List Request) (attrs : List Attribute) :
    ∃ t : Situation, t.Arises config requests attrs := by
  cases hread : readAll requests with
  | error err =>
    obtain ⟨text, htext⟩ := exists_rejects hread
    exact ⟨.unreadable text, htext⟩
  | ok wanted =>
    have hreads := readAll_eq_ok_iff.1 hread
    rcases FirstList.exists_or_noList config.derivePath attrs with ⟨i, a, listed, hfirst⟩ | hno
    · by_cases hold : ∃ e ∈ wanted, ∃ l ∈ listed, l.same e = true
      · exact ⟨.overlap i a listed wanted, hreads, hfirst, hold⟩
      · exact ⟨.room i a listed wanted, hreads, hfirst, by simpa using hold⟩
    · exact ⟨.noList wanted, hreads, hno⟩

/-- An entry that is wanted is either listed or not. -/
theorem Arises.not_room {i j : Nat} {a b : Attribute} {listed listed' wanted wanted' : List Entry}
    (h : (overlap i a listed wanted).Arises config requests attrs) :
    ¬ (room j b listed' wanted').Arises config requests attrs := by
  rintro ⟨hreads', hfirst', hnew⟩
  obtain ⟨hreads, hfirst, e, he, l, hl, hsame⟩ := h
  obtain ⟨rfl, rfl, rfl⟩ := hfirst.unique hfirst'
  rw [hreads.unique hreads'] at he
  rw [hnew e he l hl] at hsame
  cases hsame

theorem Arises.unique (ht : t.Arises config requests attrs) (hu : u.Arises config requests attrs) :
    t = u := by
  cases t with
  | unreadable text =>
    cases u with
    | unreadable text' => rw [Rejects.unique ht hu]
    | overlap | room | noList => exact absurd ht hu.1.not_rejects
  | overlap i a listed wanted =>
    cases u with
    | unreadable text => exact absurd hu ht.1.not_rejects
    | overlap i' a' listed' wanted' =>
      obtain ⟨rfl, rfl, rfl⟩ := ht.2.1.unique hu.2.1
      rw [ht.1.unique hu.1]
    | room i' a' listed' wanted' => exact absurd hu (Arises.not_room ht)
    | noList wanted' => exact absurd hu.2 ht.2.1.not_noList
  | room i a listed wanted =>
    cases u with
    | unreadable text => exact absurd hu ht.1.not_rejects
    | overlap i' a' listed' wanted' => exact absurd ht (Arises.not_room hu)
    | room i' a' listed' wanted' =>
      obtain ⟨rfl, rfl, rfl⟩ := ht.2.1.unique hu.2.1
      rw [ht.1.unique hu.1]
    | noList wanted' => exact absurd hu.2 ht.2.1.not_noList
  | noList wanted =>
    cases u with
    | unreadable text => exact absurd hu ht.1.not_rejects
    | overlap | room => exact absurd ht.2 hu.2.1.not_noList
    | noList wanted' => rw [ht.1.unique hu.1]

theorem Arises.leads {s : Session.State} (h : t.Arises config requests s.declaration.attrs) :
    t.Leads config s (Session.step s (.appendDerives requests config)).value.1
      (Session.step s (.appendDerives requests config)).value.2 := by
  rw [step_appendDerives]
  cases t with
  | unreadable text =>
    rw [merge_of_rejects h]
    exact ⟨rfl, rfl⟩
  | overlap i a listed wanted =>
    obtain ⟨hreads, hfirst, hold⟩ := h
    rw [merge_of_reads hreads, mergeEntries_of_overlap hfirst (by simpa using hold)]
    exact ⟨rfl, _, rfl, refused_refusal config _ a.loc⟩
  | room i a listed wanted =>
    obtain ⟨hreads, hfirst, hnew⟩ := h
    rw [merge_of_reads hreads, mergeEntries_of_room hfirst (by simpa using hnew),
      grown_of_firstList hfirst]
    refine ⟨rfl, _, rfl, List.length_set, ?_, List.getElem?_set_self hfirst.lt_length⟩
    intro j hj
    exact List.getElem?_set_ne (Ne.symm hj)
  | noList wanted =>
    obtain ⟨hreads, hno⟩ := h
    rw [merge_of_reads hreads, mergeEntries_of_noList hno, grown_of_noList hno]
    exact ⟨rfl, _, rfl, rfl⟩

end Situation

/-- A merge meets exactly one of the four situations, and does what belongs to it. A merge that
fails changes nothing. Requests that are listed already are named, all of them, unless an integer of
too many digits is among them. -/
theorem merge_situation (config : Config) (requests : List Request) (s : Session.State) :
    ∃ t : Situation, t.Arises config requests s.declaration.attrs ∧
      (∀ u : Situation, u.Arises config requests s.declaration.attrs → u = t) ∧
      t.Leads config s (Session.step s (.appendDerives requests config)).value.1
        (Session.step s (.appendDerives requests config)).value.2 := by
  obtain ⟨t, ht⟩ := Situation.exists_arises config requests s.declaration.attrs
  exact ⟨t, ht, fun u hu => hu.unique ht, ht.leads⟩

/-- The least integer that is too long to be written. -/
def unwritable : Entry := .literal (.int (Int.ofNat (Nat.pow 10 Text.maxDigits)))

theorem refused_of_natural (config : Config) {n : Nat} (hn : Nat.pow 10 Text.maxDigits ≤ n)
    {es : List Entry} (h : .literal (.int (Int.ofNat n)) ∈ es) (loc : Option Position) :
    Refused config es loc .tooManyDigits :=
  .nameless h (Int.natAbs_natCast n ▸ hn)

theorem refused_unwritable (config : Config) {es : List Entry} (h : unwritable ∈ es)
    (loc : Option Position) : Refused config es loc .tooManyDigits :=
  refused_of_natural config (Nat.le_refl _) h loc

/-- A request that is listed already is refused without being named. -/
theorem unwritable_request_unnamed :
    let a : Attribute := ⟨Config.default.derivePath, .metadata (.list [unwritable]), some ⟨1, 1⟩⟩
    let d : Declaration := ⟨"S", .struct (some .unit) true, [a], some ⟨1, 1⟩⟩
    FirstList Config.default.derivePath d.attrs 0 a [unwritable] ∧
      unwritable.same unwritable = true ∧
      (merge Config.default [.entry unwritable] d).value = .error .tooManyDigits := by
  intro a d
  have hfirst : FirstList Config.default.derivePath d.attrs 0 a [unwritable] :=
    ⟨rfl, ⟨rfl, rfl⟩, fun j hj => absurd hj (Nat.not_lt_zero j)⟩
  have hlisted : unwritable.isIn [unwritable] = true := Entry.isIn_of_mem (List.mem_singleton.2 rfl)
  have hreads : Reads [.entry unwritable] [unwritable] := rfl
  refine ⟨hfirst, Entry.same_refl _, ?_⟩
  rw [merge_of_reads hreads, mergeEntries_of_overlap hfirst ⟨_, List.mem_singleton.2 rfl, hlisted⟩]
  have hmem : unwritable ∈ [unwritable].filter (·.isIn [unwritable]) :=
    List.mem_filter.2 ⟨List.mem_singleton.2 rfl, hlisted⟩
  rw [← (refused_unwritable Config.default hmem a.loc).eq_refusal]

/-! ## Merges one after another -/

section Sequence

variable {xs ys : List Entry}

/-- The first derive list of a grown declaration holds the old entries and then the new ones. -/
theorem firstList_grown (config : Config) (xs : List Entry) (d : Declaration) :
    ∃ i a, FirstList config.derivePath (grown config xs d).attrs i a
      (firstEntries config.derivePath d.attrs ++ xs) := by
  rcases FirstList.exists_or_noList config.derivePath d.attrs with ⟨i, a, listed, h⟩ | h
  · rw [grown_of_firstList h, h.firstEntries_eq]
    exact ⟨i, _, h.set (withEntries_lists h.lists _)⟩
  · rw [grown_of_noList h, h.firstEntries_eq]
    exact ⟨_, _, h.firstList_append (newList_lists config xs)⟩

/-- Growing twice is growing once by both: the list that the first made or extended is the one that
the second extends. -/
theorem grown_grown (config : Config) (xs ys : List Entry) (d : Declaration) :
    grown config ys (grown config xs d) = grown config (xs ++ ys) d := by
  rcases FirstList.exists_or_noList config.derivePath d.attrs with ⟨i, a, listed, h⟩ | h
  · have hsecond := h.set (withEntries_lists h.lists (listed ++ xs))
    rw [grown_of_firstList h, grown_of_firstList h, grown_of_firstList hsecond]
    simp [withEntries]
  · have hsecond := h.firstList_append (newList_lists config xs)
    rw [grown_of_noList h, grown_of_noList h, grown_of_firstList hsecond]
    simp [withEntries, newList]

theorem mergeEntries_append {d' : Declaration} (hdisj : ∀ y ∈ ys, y.isIn xs = false) :
    (mergeEntries config (xs ++ ys) d).value = .ok d' ↔
      ∃ d₁, (mergeEntries config xs d).value = .ok d₁ ∧ (mergeEntries config ys d₁).value = .ok d' := by
  obtain ⟨i, a, hfirst⟩ := firstList_grown config xs d
  simp only [mergeEntries_eq_ok_iff, List.forall_mem_append]
  constructor
  · rintro ⟨⟨hx, hy⟩, rfl⟩
    refine ⟨_, ⟨hx, rfl⟩, ?_, (grown_grown config xs ys d).symm⟩
    intro y hmem
    rw [hfirst.firstEntries_eq, Entry.isIn_append, hy y hmem, hdisj y hmem]
    rfl
  · rintro ⟨_, ⟨hx, rfl⟩, hy, rfl⟩
    refine ⟨⟨hx, fun y hmem => ?_⟩, grown_grown config xs ys d⟩
    have := hy y hmem
    rw [hfirst.firstEntries_eq, Entry.isIn_append, Bool.or_eq_false_iff] at this
    exact this.1

theorem reads_entries (xs : List Entry) : Reads (xs.map .entry) xs := by
  rw [Reads, List.map_map]
  rfl

theorem merge_entries (config : Config) (xs : List Entry) (d : Declaration) :
    merge config (xs.map .entry) d = mergeEntries config xs d :=
  merge_of_reads (reads_entries xs)

/-- A merge fails exactly for the entries that are listed already. -/
theorem merge_entries_eq_error_iff {i : Nat} {a : Attribute} {listed : List Entry} {e : Failure}
    (h : FirstList config.derivePath d.attrs i a listed) :
    (merge config (xs.map .entry) d).value = .error e ↔
      (∃ x ∈ xs, x.isIn listed = true) ∧ Refused config (xs.filter (·.isIn listed)) a.loc e := by
  rw [merge_entries]
  by_cases hold : ∃ x ∈ xs, x.isIn listed = true
  · rw [mergeEntries_of_overlap h hold, and_iff_right hold]
    constructor
    · intro he
      rw [← Except.error.inj he]
      exact refused_refusal config _ a.loc
    · intro he
      rw [he.eq_refusal]
  · rw [mergeEntries_of_room h (by simpa using hold)]
    constructor
    · intro he
      cases he
    · intro he
      exact absurd he.1 hold

end Sequence

/-- Merging `xs` and then `ys`. If they have no entry in common, it comes to the same as merging them
at once. In any case the second merge is refused exactly for those of `ys` that the old list or `xs`
holds, and all of these are named, unless an integer of too many digits is among them. So a merge that
is repeated is refused for all its entries. -/
theorem merge_batch (config : Config) (d : Declaration) (xs ys : List Entry) :
    ((∀ y ∈ ys, ∀ x ∈ xs, y.same x = false) →
      ∀ d', (merge config ((xs ++ ys).map .entry) d).value = .ok d' ↔
        ∃ d₁, (merge config (xs.map .entry) d).value = .ok d₁ ∧
          (merge config (ys.map .entry) d₁).value = .ok d') ∧
    ∀ d₁, (merge config (xs.map .entry) d).value = .ok d₁ →
      ((∃ e, (merge config (ys.map .entry) d₁).value = .error e) ↔
        ∃ y ∈ ys, ∃ l ∈ firstEntries config.derivePath d.attrs ++ xs, l.same y = true) ∧
      (∀ e, (merge config (ys.map .entry) d₁).value = .error e → ∃ loc, Refused config
        (ys.filter (·.isIn (firstEntries config.derivePath d.attrs ++ xs))) loc e) ∧
      (xs ≠ [] → ∃ loc e, (merge config (xs.map .entry) d₁).value = .error e ∧
        Refused config xs loc e) := by
  constructor
  · intro hdisj d'
    simp only [merge_entries]
    apply mergeEntries_append
    intro y hy
    rw [Entry.isIn_eq_false]
    intro x hx
    rw [Entry.same_comm]
    exact hdisj y hy x hx
  · intro d₁ h₁
    obtain ⟨-, rfl⟩ := mergeEntries_eq_ok_iff.1 (merge_entries config xs d ▸ h₁)
    obtain ⟨i, a, hfirst⟩ := firstList_grown config xs d
    refine ⟨?_, ?_, ?_⟩
    · constructor
      · rintro ⟨e, he⟩
        simpa using ((merge_entries_eq_error_iff hfirst).1 he).1
      · intro hold
        exact ⟨_, (merge_entries_eq_error_iff hfirst).2 ⟨by simpa using hold, refused_refusal _ _ _⟩⟩
    · intro e he
      exact ⟨a.loc, ((merge_entries_eq_error_iff hfirst).1 he).2⟩
    · intro hne
      have hall : ∀ x ∈ xs, x.isIn (firstEntries config.derivePath d.attrs ++ xs) = true :=
        fun x hx => Entry.isIn_of_mem (List.mem_append_right _ hx)
      obtain ⟨x, hx⟩ := List.exists_mem_of_ne_nil xs hne
      have hrefused := refused_refusal config xs a.loc
      refine ⟨a.loc, _, (merge_entries_eq_error_iff hfirst).2 ⟨⟨x, hx, hall x hx⟩, ?_⟩, hrefused⟩
      rw [List.filter_eq_self.2 hall]
      exact hrefused

/-- A merge succeeds, and when it is repeated its request is not named. -/
theorem unwritable_repeated_unnamed :
    let d : Declaration := ⟨"S", .struct (some .unit) true, [], some ⟨1, 1⟩⟩
    ∃ d₁, (merge Config.default [.entry unwritable] d).value = .ok d₁ ∧
      (merge Config.default [.entry unwritable] d₁).value = .error .tooManyDigits := by
  intro d
  have hno : NoList Config.default.derivePath d.attrs := fun a ha => absurd ha List.not_mem_nil
  have hmem : unwritable ∈ [unwritable] := List.mem_singleton.2 rfl
  have hempty : firstEntries Config.default.derivePath d.attrs = [] := hno.firstEntries_eq
  obtain ⟨i, a, hfirst⟩ := firstList_grown Config.default [unwritable] d
  rw [hempty, List.nil_append] at hfirst
  have hlisted : unwritable.isIn [unwritable] = true := Entry.isIn_of_mem hmem
  have hoverlap : unwritable ∈ [unwritable].filter (·.isIn [unwritable]) :=
    List.mem_filter.2 ⟨hmem, hlisted⟩
  have hrefused := refused_unwritable Config.default hoverlap a.loc
  refine ⟨grown Config.default [unwritable] d, ?_, ?_⟩
  · exact (congrArg Logged.value (merge_entries _ [unwritable] d)).trans (mergeEntries_of_noList hno)
  · show (merge Config.default ([unwritable].map .entry) _).value = _
    exact (merge_entries_eq_error_iff hfirst).2 ⟨⟨_, hmem, hlisted⟩, hrefused⟩

/-- A derive written as one name. -/
def bare (name : Segment) : Entry := .path (.single name)

/-- A struct with a marker `#[derive]` in front of `#[derive(Clone)]`. -/
def marked : Declaration where
  ident := "S"
  data := .struct (some .unit) true
  attrs :=
    [⟨Config.default.derivePath, .metadata .marker, some ⟨1, 1⟩⟩,
      ⟨Config.default.derivePath, .metadata (.list [bare ⟨"Clone", by decide⟩]), some ⟨2, 1⟩⟩]
  loc := some ⟨1, 1⟩

/-- `Debug` and then `Copy` merge into `marked` as both do at once, and `Debug` not again. -/
theorem merge_batch_marked :
    let debug := [bare ⟨"Debug", by decide⟩]
    let copy := [bare ⟨"Copy", by decide⟩]
    (∀ y ∈ copy, ∀ x ∈ debug, y.same x = false) ∧ debug ≠ [] ∧
    (∀ d', (merge Config.default ((debug ++ copy).map .entry) marked).value = .ok d' ↔
      ∃ d₁, (merge Config.default (debug.map .entry) marked).value = .ok d₁ ∧
        (merge Config.default (copy.map .entry) d₁).value = .ok d') ∧
    ∃ d₁, (merge Config.default (debug.map .entry) marked).value = .ok d₁ ∧
      ∃ loc e, (merge Config.default (debug.map .entry) d₁).value = .error e ∧
        Refused Config.default debug loc e := by
  intro debug copy
  have hdisj : ∀ y ∈ copy, ∀ x ∈ debug, y.same x = false := by decide
  have hne : debug ≠ [] := List.cons_ne_nil _ _
  obtain ⟨hbatch, hagain⟩ := merge_batch Config.default marked debug copy
  exact ⟨hdisj, hne, hbatch hdisj, grown Config.default debug marked, rfl, (hagain _ rfl).2.2 hne⟩

end DeriveKit.Derive
