import DeriveKit.Proofs.Repetitions
import DeriveKit.Source

/-!
# Reading paths and types

The reader of types keeps the types that are still open around the current one. Forwards, each state
accounts for the tokens so far: they are the beginnings of the open types, one inside the other, and
then what the state has of the innermost one (`Accounts`). Backwards, the tokens of a type lead from
the state that wants a type to the state in which that type is complete, whatever is open around it
(`readFrom_type`).
-/
namespace DeriveKit.Reader

open DeriveKit.Token (Kind)
open DeriveKit.Grammar

/-! ## Paths -/

theorem exact_segment : segment.Exact IsSegment ⟨false, [.name], []⟩ := by
  have h := exact_one (fun t => if t.kind = .name then Segment.of? t.text else none)
    [.name] (by simp +contextual) ⟨⟨.name, "x", .start⟩, ⟨"x", by decide⟩, rfl⟩
  refine h.congr (.refl _) fun ts s => ?_
  constructor
  · rintro ⟨t, rfl, ht⟩
    by_cases hk : t.kind = .name
    · by_cases htext : t.text = ""
      · simp [Segment.of?, htext] at ht
      · simp only [hk, if_true, Segment.of?, htext, dite_false, Option.some.injEq] at ht
        exact .name hk (by rw [← ht])
    · simp [hk] at ht
  · rintro ⟨hk, htext⟩
    exact ⟨_, rfl, by simp [hk, htext, Segment.of?, s.property]⟩

theorem exact_step : ((kind .pathSep).skipThen segment).Exact IsStep ⟨false, [.pathSep], []⟩ := by
  refine ((exact_kind .pathSep).skipThen exact_segment (by decide)).congr (by decide) fun ts s => ?_
  constructor
  · rintro ⟨_, us, rfl, ⟨_, t, rfl, ht⟩, hs⟩
    exact .sep ht hs
  · rintro ⟨ht, hs⟩
    exact ⟨[_], _, rfl, ⟨(), _, rfl, ht⟩, hs⟩

theorem exact_path : path.Exact IsPath ⟨false, [.name], [.pathSep]⟩ := by
  have h := exact_segment.andThen (exact_step.many rfl (by decide)) (by decide)
  refine (h.map _).congr (by decide) fun ts p => ?_
  constructor
  · rintro ⟨⟨head, tail⟩, ⟨us, vs, rfl, hhead, htail⟩, rfl⟩
    exact .mk hhead htail
  · rintro ⟨hhead, htail⟩
    exact ⟨(_, _), ⟨_, _, rfl, hhead, htail⟩, rfl⟩

theorem path_feed_start {t : Token} (h : t.kind ≠ .name) : path.feed path.start t = none := by
  rw [Option.eq_none_iff_forall_ne_some]
  intro s hs
  exact h (by simpa using exact_path.first t s hs)

theorem path_feed_finished {s : path.State} {p : Path} {t : Token} (hs : path.finish s = some p)
    (h : t.kind ≠ .pathSep) : path.feed s t = none := by
  rw [Option.eq_none_iff_forall_ne_some]
  intro s' hs'
  exact h (by simpa using exact_path.next s p t s' hs hs')

/-! ## Lists of types

Generic arguments and tuples are read alike. -/

/-- What encloses a list of types. -/
inductive Enclosure where
  | args (p : Path)
  | tuple

namespace Enclosure

def frame : Enclosure → List TypeExpr → TypeFrame
  | args p => .args p
  | tuple => .tuple

/-- The kind of token that closes the list. -/
def right : Enclosure → Kind
  | args _ => .greater
  | tuple => .rightParen

/-- The type that the list makes. -/
def whole : Enclosure → List TypeExpr → TypeExpr
  | args p => .path p
  | tuple => .tuple

/-- Whether the list may hold these types. Generic arguments are never empty. -/
def admits : Enclosure → List TypeExpr → Bool
  | args _, types => !types.isEmpty
  | tuple, _ => true

variable {e : Enclosure} {done : List TypeExpr} {frames : List TypeFrame} {type : TypeExpr} {t : Token}

theorem close_frame (ht : t.kind = e.right) (hdone : e.admits done = true) :
    TypeState.close (e.frame done :: frames) t = some (.complete frames (e.whole done)) := by
  cases e with
  | args p =>
    have hne : done ≠ [] := by simpa [admits] using hdone
    simp [frame, TypeState.close, whole, ht, right, hne]
  | tuple => simp [frame, TypeState.close, whole, ht, right]

theorem leave_right (ht : t.kind = e.right) :
    TypeState.leave (e.frame done :: frames) type t =
      some (.complete frames (e.whole (done ++ [type]))) := by
  cases e <;> simp [frame, TypeState.leave, whole, ht, right]

theorem leave_comma (ht : t.kind = .comma) :
    TypeState.leave (e.frame done :: frames) type t =
      some (.wanted (e.frame (done ++ [type]) :: frames)) := by
  cases e <;> simp [frame, TypeState.leave, ht]

theorem right_ne (e : Enclosure) (k : Kind) (hk : k ∈ [Kind.name, .pathSep, .less, .ampersand, .leftParen]) :
    e.right ≠ k := by
  revert k
  cases e <;> simp [right]

end Enclosure

/-! ## From a type to the state in which it is complete -/

section Complete

variable {ts us rest : List Token} {t : Token} {type : TypeExpr} {frames : List TypeFrame}

/-- The next token, if any, does not continue a type that ends in a path. -/
def Stops (rest : List Token) : Prop := ∀ t ∈ rest.head?, t.kind ≠ .pathSep ∧ t.kind ≠ .less

theorem feedAll_inPath {s s' : path.State} (h : path.feedAll s us = some s') :
    typeExpr.feedAll (.inPath frames s) us = some (.inPath frames s') := by
  induction us generalizing s with
  | nil =>
    cases h
    rfl
  | cons t us ih =>
    obtain ⟨s₁, h₁, h⟩ := Option.bind_eq_some_iff.1 h
    simp only [feedAll, TypeState.feed, h₁, Option.bind_some]
    exact ih h

theorem feed_wanted_name (h : t.kind = .name) :
    TypeState.feed (.wanted frames) t = ((path.feed path.start t).map (.inPath frames)).orElse
      fun _ => TypeState.close frames t := by
  simp [TypeState.feed, TypeState.enter, h]

theorem feedAll_path {p : Path} (h : IsPath us p) :
    ∃ s, path.finish s = some p ∧
      ∀ frames, typeExpr.feedAll (.wanted frames) us = some (.inPath frames s) := by
  have hread := (exact_path.reads us p).2 h
  obtain ⟨s, hs, hp⟩ := Option.bind_eq_some_iff.1 hread
  refine ⟨s, hp, fun frames => ?_⟩
  cases us with
  | nil => exact absurd h (exact_path.not_nil rfl p)
  | cons t us =>
    obtain ⟨s₁, h₁, hs⟩ := Option.bind_eq_some_iff.1 hs
    have hname : t.kind = .name := by simpa using exact_path.first t s₁ h₁
    simp only [feedAll, feed_wanted_name hname, h₁, Option.map_some, Option.orElse_some,
      Option.bind_some]
    exact feedAll_inPath hs

/-- At its end a path is a complete type. -/
theorem readFrom_inPath {s : path.State} {p : Path} (hs : path.finish s = some p) (hrest : Stops rest) :
    typeExpr.readFrom (.inPath frames s) rest = typeExpr.readFrom (.complete frames (.path p [])) rest := by
  cases rest with
  | nil => simp [readFrom_nil, TypeState.finish, hs]
  | cons t rest =>
    obtain ⟨hsep, hless⟩ := hrest t rfl
    rw [readFrom_cons, readFrom_cons]
    simp [TypeState.feed, path_feed_finished hs hsep, hs, hless]

theorem readFrom_complete_ref (frames : List TypeFrame) (type : TypeExpr) (ts : List Token) :
    typeExpr.readFrom (.complete (.ref :: frames) type) ts =
      typeExpr.readFrom (.complete frames (.ref type)) ts := by
  cases ts <;> rfl

theorem readFrom_complete_refMut (frames : List TypeFrame) (type : TypeExpr) (ts : List Token) :
    typeExpr.readFrom (.complete (.refMut :: frames) type) ts =
      typeExpr.readFrom (.complete frames (.refMut type)) ts := by
  cases ts <;> rfl

/-- A type begins with a name, a reference or a parenthesis. -/
theorem isType_head (h : IsType ts type) :
    ∃ t us, ts = t :: us ∧ t.kind ∈ [Kind.name, .ampersand, .leftParen] := by
  have hpath : ∀ {us : List Token} {p : Path}, IsPath us p → ∃ t vs, us = t :: vs ∧ t.kind = .name := by
    rintro us p ⟨⟨hk, -⟩, htail⟩
    exact ⟨_, _, rfl, hk⟩
  cases h with
  | path hp =>
    obtain ⟨t, us, rfl, ht⟩ := hpath hp
    exact ⟨t, us, rfl, by simp [ht]⟩
  | generic hp =>
    obtain ⟨t, us, rfl, ht⟩ := hpath hp
    exact ⟨t, _, rfl, by simp [ht]⟩
  | ref hamp => exact ⟨_, _, rfl, by simp [hamp]⟩
  | refMut hamp => exact ⟨_, _, rfl, by simp [hamp]⟩
  | tuple hleft => exact ⟨_, _, rfl, by simp [hleft]⟩

/-- After `&` a type is read as after any beginning, since it does not begin with `mut`. -/
theorem readFrom_ampersand (h : IsType ts type) :
    typeExpr.readFrom (.ampersand frames) (ts ++ rest) =
      typeExpr.readFrom (.wanted (.ref :: frames)) (ts ++ rest) := by
  obtain ⟨t, us, rfl, ht⟩ := isType_head h
  have hword : t.kind ≠ .mutable := by
    intro hword
    simp [hword] at ht
  rw [List.cons_append, readFrom_cons, readFrom_cons]
  cases henter : TypeState.enter (.ref :: frames) t <;>
    simp [TypeState.feed, hword, henter, TypeState.close]

end Complete

mutual

/-- The tokens of a type lead to its completion. -/
theorem readFrom_type {ts : List Token} {type : TypeExpr} :
    IsType ts type → ∀ (frames : List TypeFrame) (rest : List Token), Stops rest →
      typeExpr.readFrom (.wanted frames) (ts ++ rest) = typeExpr.readFrom (.complete frames type) rest
  | .path hp, frames, rest, hrest => by
    obtain ⟨s, hs, hfeed⟩ := feedAll_path hp
    rw [readFrom_append, hfeed, Option.bind_some, readFrom_inPath hs hrest]
  | @IsType.generic _ us less greater p _ hp hless hargs hne hgreater,
      frames, rest, _ => by
    obtain ⟨s, hs, hfeed⟩ := feedAll_path hp
    have hsep : less.kind ≠ .pathSep := by simp [hless]
    have hopen : typeExpr.feed (.inPath frames s) less = some (.wanted (.args p [] :: frames)) := by
      simp [TypeState.feed, path_feed_finished hs hsep, hs, hless]
    rw [List.append_assoc, readFrom_append, hfeed, Option.bind_some, List.cons_append,
      readFrom_of_feed hopen, List.append_assoc]
    exact readFrom_types hargs (.args p) [] frames greater rest hgreater
      (by simpa [Enclosure.admits] using hne)
  | @IsType.ref _ amp _ hamp h, frames, rest, hrest => by
    have hstart : typeExpr.feed (.wanted frames) amp = some (.ampersand frames) := by
      simp [TypeState.feed, TypeState.enter, hamp]
    rw [List.cons_append, readFrom_of_feed hstart, readFrom_ampersand h, readFrom_type h _ rest hrest,
      readFrom_complete_ref]
  | @IsType.refMut _ amp word _ hamp hword h, frames, rest, hrest => by
    have hstart : typeExpr.feed (.wanted frames) amp = some (.ampersand frames) := by
      simp [TypeState.feed, TypeState.enter, hamp]
    have hmut : typeExpr.feed (.ampersand frames) word = some (.wanted (.refMut :: frames)) := by
      simp [TypeState.feed, hword]
    rw [List.cons_append, List.cons_append, readFrom_of_feed hstart, readFrom_of_feed hmut,
      readFrom_type h _ rest hrest, readFrom_complete_refMut]
  | @IsType.tuple _ left right _ hleft htypes hright, frames, rest, _ => by
    have hstart : typeExpr.feed (.wanted frames) left = some (.wanted (.tuple [] :: frames)) := by
      simp [TypeState.feed, TypeState.enter, hleft]
    rw [List.cons_append, readFrom_of_feed hstart, List.append_assoc]
    exact readFrom_types htypes .tuple [] frames right rest hright rfl

/-- The tokens of a list and what closes it lead to the completion of the whole. -/
theorem readFrom_types {us : List Token} {types : List TypeExpr} :
    CommaList IsType us types → ∀ (e : Enclosure) (done : List TypeExpr) (frames : List TypeFrame)
      (right : Token) (rest : List Token), right.kind = e.right → e.admits (done ++ types) = true →
      typeExpr.readFrom (.wanted (e.frame done :: frames)) (us ++ right :: rest) =
        typeExpr.readFrom (.complete frames (e.whole (done ++ types))) rest
  | .nil, e, done, frames, right, rest, hright, hadmits => by
    have hname : right.kind ≠ .name := by rw [hright]; exact e.right_ne _ (by simp)
    have hamp : right.kind ≠ .ampersand := by rw [hright]; exact e.right_ne _ (by simp)
    have hparen : right.kind ≠ .leftParen := by rw [hright]; exact e.right_ne _ (by simp)
    rw [List.append_nil] at hadmits ⊢
    rw [List.nil_append, readFrom_cons]
    simp [TypeState.feed, TypeState.enter, hamp, hparen, path_feed_start hname,
      Enclosure.close_frame hright hadmits]
  | .last h, e, done, frames, right, rest, hright, _ => by
    have hstops : Stops (right :: rest) := by
      rintro t ⟨⟩
      rw [hright]
      exact ⟨e.right_ne _ (by simp), e.right_ne _ (by simp)⟩
    rw [readFrom_type h _ _ hstops, readFrom_cons]
    simp [TypeState.feed, Enclosure.leave_right hright]
  | @CommaList.cons _ _ _ us comma type types h hcomma hs,
      e, done, frames, right, rest, hright, hadmits => by
    have hstops : Stops (comma :: (us ++ right :: rest)) := by
      rintro t ⟨⟩
      simp [hcomma]
    have hrest := readFrom_types hs e (done ++ [type]) frames right rest hright (by simpa using hadmits)
    rw [List.append_assoc, List.cons_append, readFrom_type h _ _ hstops, readFrom_cons]
    simpa [TypeState.feed, Enclosure.leave_comma hcomma] using hrest

end

/-! ## From a state to the tokens before it -/

/-- Types with a comma after each: how a list begins. -/
inductive Begun : Phrase (List TypeExpr)
  | nil : Begun [] []
  | snoc {ts us : List Token} {comma : Token} {done : List TypeExpr} {type : TypeExpr}
      (hbegun : Begun ts done) (h : IsType us type) (hcomma : comma.kind = .comma) :
      Begun (ts ++ (us ++ [comma])) (done ++ [type])

theorem Begun.append {ts us : List Token} {done types : List TypeExpr} (h : Begun ts done)
    (hs : CommaList IsType us types) : CommaList IsType (ts ++ us) (done ++ types) := by
  induction h generalizing us types with
  | nil => exact hs
  | snoc _ h hcomma ih => simpa using ih (.cons h hcomma hs)

/-- The tokens with which types that are still open have begun. -/
inductive Opened : Phrase (List TypeFrame)
  | nil : Opened [] []
  | ref {ts : List Token} {amp : Token} {frames : List TypeFrame} (h : Opened ts frames)
      (hamp : amp.kind = .ampersand) : Opened (ts ++ [amp]) (.ref :: frames)
  | refMut {ts : List Token} {amp word : Token} {frames : List TypeFrame} (h : Opened ts frames)
      (hamp : amp.kind = .ampersand) (hword : word.kind = .mutable) :
      Opened (ts ++ [amp, word]) (.refMut :: frames)
  | args {ts us vs : List Token} {less : Token} {frames : List TypeFrame} {p : Path}
      {done : List TypeExpr} (h : Opened ts frames) (hp : IsPath us p) (hless : less.kind = .less)
      (hbegun : Begun vs done) : Opened (ts ++ (us ++ less :: vs)) (.args p done :: frames)
  | tuple {ts vs : List Token} {left : Token} {frames : List TypeFrame} {done : List TypeExpr}
      (h : Opened ts frames) (hleft : left.kind = .leftParen) (hbegun : Begun vs done) :
      Opened (ts ++ left :: vs) (.tuple done :: frames)

/-- The tokens so far are what the state knows of them. -/
def Accounts (ts : List Token) : TypeState → Prop
  | .wanted frames => Opened ts frames
  | .ampersand frames => ∃ us amp, ts = us ++ [amp] ∧ Opened us frames ∧ amp.kind = .ampersand
  | .inPath frames s => ∃ us vs, ts = us ++ vs ∧ Opened us frames ∧ path.feedAll path.start vs = some s
  | .complete frames type => ∃ us vs, ts = us ++ vs ∧ Opened us frames ∧ IsType vs type

section Accounts

variable {ts us : List Token} {t : Token} {type : TypeExpr} {frames : List TypeFrame} {s : TypeState}

theorem isPath_of_feedAll {s : path.State} {p : Path} (h : path.feedAll path.start ts = some s)
    (hs : path.finish s = some p) : IsPath ts p :=
  (exact_path.reads ts p).1 (by rw [read?, h]; exact hs)

theorem accounts_enter (h : Opened ts frames) (ht : TypeState.enter frames t = some s) :
    Accounts (ts ++ [t]) s := by
  unfold TypeState.enter at ht
  split at ht
  · next hamp =>
    cases ht
    exact ⟨ts, t, rfl, h, hamp⟩
  split at ht
  · next hleft =>
    cases ht
    exact .tuple h hleft .nil
  · obtain ⟨s', hs', rfl⟩ := Option.map_eq_some_iff.1 ht
    exact ⟨ts, [t], rfl, h, by simp [feedAll, hs']⟩

theorem accounts_close (h : Opened ts frames) (ht : TypeState.close frames t = some s) :
    Accounts (ts ++ [t]) s := by
  cases h with
  | nil | ref | refMut => cases ht
  | args h hp hless hbegun =>
    simp only [TypeState.close] at ht
    split at ht
    · next hclose =>
      cases ht
      have hargs : CommaList IsType _ _ := hbegun.append .nil
      simp only [List.append_nil] at hargs
      exact ⟨_, _, by simp, h, .generic hp hless hargs hclose.2 hclose.1⟩
    · cases ht
  | tuple h hleft hbegun =>
    simp only [TypeState.close] at ht
    split at ht
    · next hright =>
      cases ht
      have htypes : CommaList IsType _ _ := hbegun.append .nil
      simp only [List.append_nil] at htypes
      exact ⟨_, _, by simp, h, .tuple hleft htypes hright⟩
    · cases ht

/-- After a type the references around it end too, up to the list around them. -/
theorem accounts_leave (h : Opened ts frames) (htype : IsType us type)
    (ht : TypeState.leave frames type t = some s) : Accounts (ts ++ us ++ [t]) s := by
  induction h generalizing us type with
  | nil => cases ht
  | ref h hamp ih =>
    have := ih (.ref hamp htype) ht
    simpa using this
  | refMut h hamp hword ih =>
    have := ih (.refMut hamp hword htype) ht
    simpa using this
  | args h hp hless hbegun =>
    simp only [TypeState.leave] at ht
    split at ht
    · next hcomma =>
      cases ht
      have := Opened.args h hp hless (hbegun.snoc htype hcomma)
      simpa [Accounts] using this
    split at ht
    · next hgreater =>
      cases ht
      exact ⟨_, _, by simp, h,
        .generic hp hless (hbegun.append (.last htype)) (by simp) hgreater⟩
    · cases ht
  | tuple h hleft hbegun =>
    simp only [TypeState.leave] at ht
    split at ht
    · next hcomma =>
      cases ht
      have := Opened.tuple h hleft (hbegun.snoc htype hcomma)
      simpa [Accounts] using this
    split at ht
    · next hright =>
      cases ht
      exact ⟨_, _, by simp, h, .tuple hleft (hbegun.append (.last htype)) hright⟩
    · cases ht

theorem accounts_feed {s' : TypeState} (h : Accounts ts s) (ht : TypeState.feed s t = some s') :
    Accounts (ts ++ [t]) s' := by
  cases s with
  | wanted frames =>
    simp only [TypeState.feed] at ht
    cases henter : TypeState.enter frames t with
    | some s₁ =>
      rw [henter] at ht
      cases ht
      exact accounts_enter h henter
    | none =>
      rw [henter] at ht
      exact accounts_close h ht
  | ampersand frames =>
    obtain ⟨us, amp, rfl, hopened, hamp⟩ := h
    simp only [TypeState.feed] at ht
    split at ht
    · next hword =>
      cases ht
      simpa [Accounts] using hopened.refMut hamp hword
    · exact accounts_enter (hopened.ref hamp) ht
  | inPath frames s =>
    obtain ⟨us, vs, rfl, hopened, hvs⟩ := h
    simp only [TypeState.feed] at ht
    cases hfeed : path.feed s t with
    | some s₁ =>
      rw [hfeed] at ht
      cases ht
      exact ⟨us, vs ++ [t], by simp, hopened, by simp [feedAll_append, hvs, feedAll, hfeed]⟩
    | none =>
      simp only [hfeed, Option.bind_eq_some_iff] at ht
      obtain ⟨p, hp, ht⟩ := ht
      have hpath := isPath_of_feedAll hvs hp
      split at ht
      · next hless =>
        cases ht
        simpa [Accounts] using hopened.args hpath hless .nil
      · exact accounts_leave hopened (.path hpath) ht
  | complete frames type =>
    obtain ⟨us, vs, rfl, hopened, htype⟩ := h
    exact accounts_leave hopened htype ht

theorem accounts_of_feedAll (h : typeExpr.feedAll typeExpr.start ts = some s) : Accounts ts s :=
  feedAll_invariant (r := typeExpr) (P := Accounts) .nil
    (fun _ _ _ _ hs ht => accounts_feed hs ht) h

theorem isType_of_outermost {type' : TypeExpr} (h : Opened ts frames) (htype : IsType us type)
    (hout : TypeState.outermost frames type = some type') : IsType (ts ++ us) type' := by
  induction h generalizing us type with
  | nil =>
    cases hout
    exact htype
  | ref h hamp ih => simpa using ih (.ref hamp htype) hout
  | refMut h hamp hword ih => simpa using ih (.refMut hamp hword htype) hout
  | args | tuple => cases hout

theorem isType_of_finish (h : Accounts ts s) (hs : TypeState.finish s = some type) : IsType ts type := by
  cases s with
  | wanted | ampersand => cases hs
  | inPath frames s =>
    obtain ⟨us, vs, rfl, hopened, hvs⟩ := h
    obtain ⟨p, hp, hout⟩ := Option.bind_eq_some_iff.1 hs
    exact isType_of_outermost hopened (.path (isPath_of_feedAll hvs hp)) hout
  | complete frames type =>
    obtain ⟨us, vs, rfl, hopened, htype⟩ := h
    exact isType_of_outermost hopened htype hs

end Accounts

/-! ## The reader of types is exact -/

/-- What is open around a type that could be the whole takes no token. -/
theorem leave_of_outermost {frames : List TypeFrame} {type type' : TypeExpr} (t : Token)
    (h : TypeState.outermost frames type = some type') : TypeState.leave frames type t = none := by
  induction frames generalizing type with
  | nil => rfl
  | cons frame frames ih =>
    cases frame with
    | ref | refMut => exact ih h
    | args | tuple => cases h

/-- Whatever is open around a type can be closed. -/
theorem exists_readFrom_complete (frames : List TypeFrame) (type : TypeExpr) :
    ∃ rest type', Stops rest ∧ typeExpr.readFrom (.complete frames type) rest = some type' := by
  induction frames generalizing type with
  | nil => exact ⟨[], type, by simp [Stops], rfl⟩
  | cons frame frames ih =>
    cases frame with
    | ref =>
      obtain ⟨rest, type', hstops, hread⟩ := ih (.ref type)
      exact ⟨rest, type', hstops, by rw [readFrom_complete_ref, hread]⟩
    | refMut =>
      obtain ⟨rest, type', hstops, hread⟩ := ih (.refMut type)
      exact ⟨rest, type', hstops, by rw [readFrom_complete_refMut, hread]⟩
    | args p done =>
      obtain ⟨rest, type', -, hread⟩ := ih (.path p (done ++ [type]))
      exact ⟨⟨.greater, ">", .start⟩ :: rest, type', by simp [Stops], hread⟩
    | tuple done =>
      obtain ⟨rest, type', -, hread⟩ := ih (.tuple (done ++ [type]))
      exact ⟨⟨.rightParen, ")", .start⟩ :: rest, type', by simp [Stops], hread⟩

theorem exists_readFrom_wanted (frames : List TypeFrame) :
    ∃ rest type, typeExpr.readFrom (.wanted frames) rest = some type := by
  have hname : IsPath [⟨.name, "x", .start⟩] (.single ⟨"x", by decide⟩) := .mk (.name rfl rfl) .nil
  obtain ⟨rest, type, hstops, hread⟩ := exists_readFrom_complete frames _
  exact ⟨_, type, (readFrom_type (.path hname) frames rest hstops).trans hread⟩

theorem exact_typeExpr :
    typeExpr.Exact IsType ⟨false, [.name, .ampersand, .leftParen], [.pathSep, .less]⟩ where
  reads ts type := by
    constructor
    · intro h
      obtain ⟨s, hs, hfinish⟩ := Option.bind_eq_some_iff.1 h
      exact isType_of_finish (accounts_of_feedAll hs) hfinish
    · intro h
      have hread := readFrom_type h [] [] (by simp [Stops])
      rw [List.append_nil] at hread
      exact hread
  empty type h := by
    obtain ⟨t, us, hts, -⟩ := isType_head h
    cases hts
  first t s h := by
    simp only [TypeState.feed, TypeState.enter, TypeState.close] at h
    by_cases hamp : t.kind = .ampersand
    · simp [hamp]
    by_cases hleft : t.kind = .leftParen
    · simp [hleft]
    simp only [hamp, hleft, if_false] at h
    cases hfeed : path.feed path.start t with
    | none => simp [hfeed] at h
    | some s' =>
      have hname : t.kind = .name := by simpa using exact_path.first t s' hfeed
      simp [hname]
  next s type t s' hs ht := by
    cases s with
    | wanted | ampersand => cases hs
    | complete frames type =>
      simp only [TypeState.feed, leave_of_outermost t hs] at ht
      cases ht
    | inPath frames s =>
      obtain ⟨p, hp, hout⟩ := Option.bind_eq_some_iff.1 hs
      by_cases hsep : t.kind = .pathSep
      · simp [hsep]
      · simp only [TypeState.feed, path_feed_finished hp hsep, hp, Option.bind_some,
          leave_of_outermost t hout] at ht
        split at ht
        · next hless => simp [hless]
        · cases ht
  live s := by
    cases s with
    | wanted frames => exact exists_readFrom_wanted frames
    | ampersand frames =>
      obtain ⟨rest, type, hread⟩ := exists_readFrom_wanted (.refMut :: frames)
      exact ⟨⟨.mutable, "mut", .start⟩ :: rest, type, hread⟩
    | complete frames type =>
      obtain ⟨rest, type', -, hread⟩ := exists_readFrom_complete frames type
      exact ⟨rest, type', hread⟩
    | inPath frames s =>
      obtain ⟨us, p, hp⟩ := exact_path.live s
      obtain ⟨s', hs', hfinish⟩ := Option.bind_eq_some_iff.1 hp
      obtain ⟨rest, type, hstops, hread⟩ := exists_readFrom_complete frames (.path p [])
      refine ⟨us ++ rest, type, ?_⟩
      rw [readFrom_append, feedAll_inPath hs', Option.bind_some, readFrom_inPath hfinish hstops, hread]

end DeriveKit.Reader
