import DeriveKit.Session.Run

/-!
# Growth of field lists

A struct takes fields of one kind, by name or by position, and a struct without fields takes either.
So the first call settles the kind of a struct without fields, and from then on calls of that kind
succeed and all others are refused. `growth_run` says this of every run of calls, and that the fields
at its end are those at its start followed by all that successful calls passed.
-/
namespace DeriveKit

open Session

/-- The kinds of fields: with names, or by position. -/
inductive FieldKind where
  | named
  | tuple
deriving DecidableEq

namespace FieldKind

def list : FieldKind → List Field → FieldList
  | named => .named
  | tuple => .tuple

/-- How lists grow by fields of the kind. -/
def grow : FieldKind → Grow
  | named => growNamed
  | tuple => growTuple

/-- What a declaration must be to take fields of the kind. -/
def requirement : FieldKind → Requirement
  | named => .unitOrNamed
  | tuple => .unitOrTuple

/-- Whether a semicolon ends a struct that took fields of the kind, if it ended the struct before. -/
def semi : FieldKind → Bool → Bool
  | named, _ => false
  | tuple, semi => semi

@[simp]
theorem toList_list (k : FieldKind) (fs : List Field) : (k.list fs).toList = fs := by
  cases k <;> rfl

end FieldKind

/-- Whether a list takes fields of the kind. -/
def FieldList.takes : FieldList → FieldKind → Bool
  | unit, _ => true
  | named _, k => k == .named
  | tuple _, k => k == .tuple

theorem FieldKind.takes_list_iff {k k' : FieldKind} {fs : List Field} :
    (k.list fs).takes k' = true ↔ k = k' := by
  cases k <;> cases k' <;> simp [list, FieldList.takes]

/-! ## Growing a list -/

section Growing

variable {k : FieldKind} {fields : FieldList} {semi : Bool} {d : Declaration}

theorem FieldKind.bare_of_takes (more : List Field) (hk : fields.takes k = true) :
    k.grow.bare (some fields) more = .ok (k.list (fields.toList ++ more)) := by
  cases k with
  | named =>
    cases fields with
    | unit => rfl
    | named fs => rfl
    | tuple fs => cases hk
  | tuple =>
    cases fields with
    | unit => rfl
    | named fs => cases hk
    | tuple fs => rfl

theorem FieldKind.bare_of_refused (more : List Field) (hk : fields.takes k = false) :
    k.grow.bare (some fields) more = .error ⟨.shape k.requirement, none⟩ := by
  cases k with
  | named =>
    cases fields with
    | unit => cases hk
    | named fs => cases hk
    | tuple fs => rfl
  | tuple =>
    cases fields with
    | unit => cases hk
    | named fs => rfl
    | tuple fs => cases hk

/-- Inside a struct its list grows as it does alone, and a refusal names the place of the struct. -/
theorem FieldKind.inside_struct (a : Addition) (h : d.data = .struct (some fields) semi) :
    (k.grow.inside a d).value = match k.grow.bare (some fields) (a.toAppend fields.toList) with
      | .ok grown => .ok { d with data := .struct (some grown) (k.semi semi) }
      | .error _ => .error (.abort (d.unlike k.requirement)) := by
  have hown : d.ownFields = fields.toList := by rw [Declaration.ownFields, h]
  cases k with
  | named =>
    simp only [grow, growNamed, Declaration.appendNamed, h, hown]
    cases FieldList.appendNamed (some fields) (a.toAppend fields.toList) <;> rfl
  | tuple =>
    simp only [grow, growTuple, Declaration.appendTuple, h, hown]
    cases FieldList.appendTuple (some fields) (a.toAppend fields.toList) <;> rfl

theorem FieldKind.inside_enum (a : Addition) {vs : List Variant} (h : d.data = .enum vs) :
    (k.grow.inside a d).value = .error (.abort (d.unlike k.requirement)) := by
  cases k with
  | named => simp only [grow, growNamed, Declaration.appendNamed, h]; rfl
  | tuple => simp only [grow, growTuple, Declaration.appendTuple, h]; rfl

theorem FieldKind.inside_missing (a : Addition) (h : d.data = .struct none semi) :
    (k.grow.inside a d).value = .error .noFieldList := by
  cases k with
  | named => simp only [grow, growNamed, Declaration.appendNamed, h]; rfl
  | tuple => simp only [grow, growTuple, Declaration.appendTuple, h]; rfl

end Growing

/-! ## One call -/

/-- A call that appends fields to a declaration. -/
structure GrowthCall where
  kind : FieldKind
  addition : Addition

namespace GrowthCall

def step (c : GrowthCall) : Step :=
  match c.kind with
  | .named => .appendNamed (.ok c.addition) .declaration
  | .tuple => .appendTuple (.ok c.addition) .declaration

variable {c : GrowthCall} {s : State} {fields : FieldList} {semi : Bool}

theorem step_eq (c : GrowthCall) (s : State) :
    Session.step s c.step = appendTo c.kind.grow s c.addition .declaration := by
  obtain ⟨kind, addition⟩ := c
  cases kind <;> rfl

/-- A call whose kind the list takes succeeds and answers the list that has grown. -/
theorem value_of_takes (h : s.declaration.data = .struct (some fields) semi)
    (hk : fields.takes c.kind = true) :
    let grown := c.kind.list (fields.toList ++ c.addition.toAppend fields.toList)
    (Session.step s c.step).value =
      ({ s with
          declaration := { s.declaration with data := .struct (some grown) (c.kind.semi semi) }
          identities := grownIdentities s.identities c.addition },
        .ok (.fields (some grown))) := by
  rw [step_eq]
  simp only [appendTo, Logged.value_bind, FieldKind.inside_struct c.addition h,
    FieldKind.bare_of_takes _ hk]
  rfl

/-- A call of another kind is refused and changes nothing. -/
theorem value_of_refused (h : s.declaration.data = .struct (some fields) semi)
    (hk : fields.takes c.kind = false) :
    (Session.step s c.step).value =
      (s, .error (.abort ⟨.shape c.kind.requirement, s.declaration.loc⟩)) := by
  rw [step_eq]
  simp only [appendTo, Logged.value_bind, FieldKind.inside_struct c.addition h,
    FieldKind.bare_of_refused _ hk]
  rfl

theorem value_of_enum {vs : List Variant} (h : s.declaration.data = .enum vs) :
    (Session.step s c.step).value =
      (s, .error (.abort ⟨.shape c.kind.requirement, s.declaration.loc⟩)) := by
  rw [step_eq]
  simp only [appendTo, Logged.value_bind, FieldKind.inside_enum c.addition h]
  rfl

theorem value_of_missing (h : s.declaration.data = .struct none semi) :
    (Session.step s c.step).value = (s, .error .noFieldList) := by
  rw [step_eq]
  simp only [appendTo, Logged.value_bind, FieldKind.inside_missing c.addition h]
  rfl

/-- A call touches the data of a declaration only. -/
theorem declaration_after (s : State) (c : GrowthCall) :
    ∃ data, (s.after c.step).declaration = { s.declaration with data } := by
  have hsame : s.after c.step = s → ∃ data, (s.after c.step).declaration = { s.declaration with data } :=
    fun h => ⟨s.declaration.data, by rw [h]⟩
  cases h : s.declaration.data with
  | enum vs => exact hsame (congrArg Prod.fst (value_of_enum h))
  | struct list semi =>
    cases list with
    | none => exact hsame (congrArg Prod.fst (value_of_missing h))
    | some fields =>
      cases hk : fields.takes c.kind with
      | true => exact ⟨_, congrArg (fun v => v.1.declaration) (value_of_takes h hk)⟩
      | false => exact hsame (congrArg Prod.fst (value_of_refused h hk))

/-! ## Runs of calls -/

/-- The session after a list of calls. -/
def runAll (s : State) (calls : List GrowthCall) : State := run s (calls.map step)

/-- The fields that the successful calls of a run pass, in the order of the calls. -/
def passed (s : State) : List GrowthCall → List Field
  | [] => []
  | c :: cs =>
    (match s.answer c.step with
      | .ok _ => c.addition.toAppend s.declaration.ownFields
      | .error _ => []) ++ passed (s.after c.step) cs

/-- The kind of the calls that succeed: the kind of the fields there are, else of the first call. -/
def settledKind (fields : FieldList) (calls : List GrowthCall) : Option FieldKind :=
  match fields with
  | .unit => calls.head?.map (·.kind)
  | .named _ => some .named
  | .tuple _ => some .tuple

/-- What a list becomes in a run that passes `more`. A list without fields stays so without calls. -/
def settledList (fields : FieldList) (calls : List GrowthCall) (more : List Field) : FieldList :=
  match settledKind fields calls with
  | some k => k.list (fields.toList ++ more)
  | none => .unit

theorem runAll_cons (s : State) (c : GrowthCall) (cs : List GrowthCall) :
    runAll s (c :: cs) = runAll (s.after c.step) cs :=
  run_cons s c.step (cs.map step)

theorem settledKind_list (k : FieldKind) (fs : List Field) (calls : List GrowthCall) :
    settledKind (k.list fs) calls = some k := by
  cases k <;> rfl

theorem settledKind_of_takes (cs : List GrowthCall) (hk : fields.takes c.kind = true) :
    settledKind fields (c :: cs) = some c.kind := by
  cases fields with
  | unit => rfl
  | named fs => rw [eq_of_beq hk]; rfl
  | tuple fs => rw [eq_of_beq hk]; rfl

theorem settledKind_of_refused (cs : List GrowthCall) (hk : fields.takes c.kind = false) :
    settledKind fields (c :: cs) = settledKind fields cs := by
  cases fields with
  | unit => cases hk
  | named fs => rfl
  | tuple fs => rfl

theorem passed_of_takes (cs : List GrowthCall) (h : s.declaration.data = .struct (some fields) semi)
    (hk : fields.takes c.kind = true) :
    passed s (c :: cs) = c.addition.toAppend fields.toList ++ passed (s.after c.step) cs := by
  have hown : s.declaration.ownFields = fields.toList := by rw [Declaration.ownFields, h]
  rw [passed, State.answer, value_of_takes h hk, hown]

theorem passed_of_refused (cs : List GrowthCall) (h : s.declaration.data = .struct (some fields) semi)
    (hk : fields.takes c.kind = false) : passed s (c :: cs) = passed s cs := by
  rw [passed, State.answer, State.after, value_of_refused h hk]
  rfl

/-- At the end of a run the declaration has the fields it had and then those that were passed.
Nothing else of it has changed. -/
theorem runAll_struct (calls : List GrowthCall) (h : s.declaration.data = .struct (some fields) semi) :
    ∃ semi', (runAll s calls).declaration =
      { s.declaration with data := .struct (some (settledList fields calls (passed s calls))) semi' } := by
  induction calls generalizing s fields semi with
  | nil =>
    have hlist : settledList fields [] [] = fields := by
      cases fields <;> simp [settledList, settledKind, FieldKind.list, FieldList.toList]
    exact ⟨semi, by rw [passed, hlist, ← h]; rfl⟩
  | cons c cs ih =>
    rw [runAll_cons]
    cases hk : fields.takes c.kind with
    | true =>
      have hdecl : (s.after c.step).declaration = _ :=
        congrArg (fun v => v.1.declaration) (value_of_takes h hk)
      obtain ⟨semi', hrun⟩ := ih (congrArg Declaration.data hdecl)
      refine ⟨semi', ?_⟩
      -- The list that has grown has the kind of the call, which settles the kind of the run.
      rw [hrun, hdecl, passed_of_takes cs h hk]
      simp [settledList, settledKind_list, settledKind_of_takes cs hk]
    | false =>
      have hafter : s.after c.step = s := congrArg Prod.fst (value_of_refused h hk)
      rw [hafter, passed_of_refused cs h hk, settledList, settledKind_of_refused cs hk]
      exact ih h

theorem runAll_enum (calls : List GrowthCall) {vs : List Variant} (h : s.declaration.data = .enum vs) :
    runAll s calls = s := by
  induction calls with
  | nil => rfl
  | cons c cs ih =>
    have hafter : s.after c.step = s := congrArg Prod.fst (value_of_enum h)
    rw [runAll_cons, hafter]
    exact ih

theorem runAll_take_succ (s : State) {calls : List GrowthCall} {n : Nat} (hn : calls[n]? = some c) :
    runAll s (calls.take (n + 1)) = (runAll s (calls.take n)).after c.step := by
  rw [List.take_add_one, hn, runAll, List.map_append, run_append]
  rfl

/-- Wherever a call stands in a run, the list there takes it if it is of the kind that is settled. -/
theorem takes_settledList {calls : List GrowthCall} {n : Nat} (hn : calls[n]? = some c)
    (more : List Field) :
    (settledList fields (calls.take n) more).takes c.kind = true ↔
      settledKind fields calls = some c.kind := by
  cases fields with
  | named fs => simp only [settledList, settledKind, FieldKind.takes_list_iff, Option.some_inj]
  | tuple fs => simp only [settledList, settledKind, FieldKind.takes_list_iff, Option.some_inj]
  | unit =>
    cases calls with
    | nil => cases hn
    | cons c₀ cs =>
      cases n with
      | zero =>
        -- The first call meets a list without fields, which takes any kind.
        cases hn
        simp [settledList, settledKind, FieldList.takes]
      | succ n =>
        simp only [settledList, settledKind, List.take_succ_cons, List.head?_cons, Option.map_some,
          FieldKind.takes_list_iff, Option.some_inj]

/-- Calls on a struct succeed if they are of the kind that its fields, or else the first call, settle;
others are refused and change nothing. At the end the struct has the fields it had, followed by those
that the successful calls passed. Its name, attributes and place stay. On an enum all calls are
refused. -/
theorem growth_run (s : State) (calls : List GrowthCall) :
    (∀ fields semi, s.declaration.data = .struct (some fields) semi →
      (∀ n c, calls[n]? = some c →
        (settledKind fields calls = some c.kind →
          ∃ grown semi', (runAll s (calls.take n)).answer c.step = .ok (.fields (some grown)) ∧
            (runAll s (calls.take (n + 1))).declaration.data = .struct (some grown) semi') ∧
        (settledKind fields calls ≠ some c.kind →
          (runAll s (calls.take n)).answer c.step =
              .error (.abort ⟨.shape c.kind.requirement, s.declaration.loc⟩) ∧
            runAll s (calls.take (n + 1)) = runAll s (calls.take n))) ∧
      (∃ semi', (runAll s calls).declaration.data =
        .struct (some (settledList fields calls (passed s calls))) semi') ∧
      ∀ n, (runAll s (calls.take n)).declaration.ident = s.declaration.ident ∧
        (runAll s (calls.take n)).declaration.attrs = s.declaration.attrs ∧
        (runAll s (calls.take n)).declaration.loc = s.declaration.loc) ∧
    ∀ vs, s.declaration.data = .enum vs →
      ∀ n c, calls[n]? = some c →
        (runAll s (calls.take n)).answer c.step =
            .error (.abort ⟨.shape c.kind.requirement, s.declaration.loc⟩) ∧
          runAll s (calls.take (n + 1)) = s := by
  refine ⟨fun fields semi h => ⟨fun n c hn => ?_, ?_, fun n => ?_⟩, fun vs h n c hn => ?_⟩
  · obtain ⟨semi', hdecl⟩ := runAll_struct (calls.take n) h
    have hdata := congrArg Declaration.data hdecl
    rw [runAll_take_succ s hn]
    constructor
    · intro hkind
      have hv := value_of_takes hdata ((takes_settledList hn _).2 hkind)
      exact ⟨_, _, congrArg Prod.snd hv, congrArg (fun v => v.1.declaration.data) hv⟩
    · intro hkind
      have hk := Bool.eq_false_iff.2 (mt (takes_settledList hn (passed s (calls.take n))).1 hkind)
      have hv := value_of_refused hdata hk
      rw [hdecl] at hv
      exact ⟨congrArg Prod.snd hv, congrArg Prod.fst hv⟩
  · obtain ⟨semi', hdecl⟩ := runAll_struct calls h
    exact ⟨semi', congrArg Declaration.data hdecl⟩
  · obtain ⟨semi', hdecl⟩ := runAll_struct (calls.take n) h
    rw [hdecl]
    exact ⟨rfl, rfl, rfl⟩
  · rw [runAll_enum (calls.take n) h, runAll_enum (calls.take (n + 1)) h]
    exact ⟨congrArg Prod.snd (value_of_enum h), rfl⟩

/-- A struct without fields. -/
def bareStruct : Declaration := ⟨"S", .struct (some .unit) true, [], some ⟨1, 1⟩⟩

/-- The field `a: T`, or `T` without a name. -/
def plainField (name : Option String) : Field :=
  ⟨.path (.single ⟨"T", by decide⟩) [], name, [], none⟩

/-- A struct without fields takes a named field, refuses one by position, and takes its own list. -/
theorem growth_run_bareStruct :
    let s := State.start bareStruct
    let calls : List GrowthCall :=
      [⟨.named, .fields [plainField (some "a")]⟩, ⟨.tuple, .fields [plainField none]⟩, ⟨.named, .own⟩]
    s.declaration.data = .struct (some .unit) true ∧
    settledKind .unit calls = some .named ∧
    (runAll s (calls.take 1)).answer (GrowthCall.step ⟨.tuple, .fields [plainField none]⟩) =
      .error (.abort ⟨.shape .unitOrTuple, some ⟨1, 1⟩⟩) ∧
    runAll s (calls.take 2) = runAll s (calls.take 1) ∧
    ∃ semi, (runAll s calls).declaration.data =
      .struct (some (.named [plainField (some "a"), plainField (some "a")])) semi := by
  intro s calls
  obtain ⟨hcalls, hfinal, -⟩ := (growth_run s calls).1 .unit true rfl
  obtain ⟨hanswer, hsame⟩ := (hcalls 1 _ rfl).2 (by decide)
  exact ⟨rfl, rfl, hanswer, hsame, hfinal⟩

end GrowthCall

end DeriveKit
