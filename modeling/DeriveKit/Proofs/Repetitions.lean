import DeriveKit.Proofs.ExactReaders

/-!
# Readers of repetitions

A repetition and a list with commas work alike: a phrase is read as long as it takes tokens, and then
the next token decides what comes after it. `items` is what they have in common. Both are exact if
the phrase is, and if no token that may come after a phrase could have continued it.
-/
namespace DeriveKit.Reader

open DeriveKit.Token (Kind)
open DeriveKit.Grammar

variable {α : Type} {p : Reader α} {L : Phrase α} {π : Profile}

/-! ## What repetitions have in common -/

/-- Phrases one after another. `leave` says what comes of a token after a phrase, when these have been
read. -/
@[reducible]
def items (p : Reader α) (leave : List α → Token → Option (ManyState p.State α)) : Reader (List α) where
  State := ManyState p.State α
  start := ⟨[], none⟩
  feed
    | ⟨done, none⟩, t => (p.feed p.start t).map fun s => ⟨done, some s⟩
    | ⟨done, some s⟩, t =>
      match p.feed s t with
      | some s => some ⟨done, some s⟩
      | none => (p.finish s).bind fun a => leave (done ++ [a]) t
  finish
    | ⟨done, none⟩ => some done
    | ⟨done, some s⟩ => (p.finish s).map fun a => done ++ [a]

/-- After a phrase of a repetition the next one begins. -/
def afterPhrase (p : Reader α) (done : List α) (t : Token) : Option (ManyState p.State α) :=
  (p.feed p.start t).map fun s => ⟨done, some s⟩

/-- After an item of a list a comma stands. -/
def afterItem (p : Reader α) (done : List α) (t : Token) : Option (ManyState p.State α) :=
  if t.kind = .comma then some ⟨done, none⟩ else none

section Items

variable {leave : List α → Token → Option (ManyState p.State α)} {kinds : List Kind}

/-- What a run after a phrase is read as. -/
def readAfter (p : Reader α) (leave : List α → Token → Option (ManyState p.State α)) (done : List α) :
    List Token → Option (List α)
  | [] => some done
  | t :: ts => (leave done t).bind fun s => (p.items leave).readFrom s ts

theorem readFrom_items_none (done : List α) (t : Token) (ts : List Token) :
    (p.items leave).readFrom ⟨done, none⟩ (t :: ts) =
      (p.feed p.start t).bind fun s => (p.items leave).readFrom ⟨done, some s⟩ ts := by
  rw [readFrom_cons]
  cases h : p.feed p.start t <;> simp [h]

/-- Inside a phrase: it goes on as long as it takes tokens. -/
theorem readFrom_items_some (hp : p.Exact L π) (hleave : ∀ done t s, leave done t = some s → t.kind ∈ kinds)
    (hends : ∀ k ∈ kinds, k ∉ π.next) (done : List α) (s : p.State) (ts : List Token) (as : List α) :
    (p.items leave).readFrom ⟨done, some s⟩ ts = some as ↔
      ∃ us vs a, ts = us ++ vs ∧ p.readFrom s us = some a ∧
        p.readAfter leave (done ++ [a]) vs = some as := by
  induction ts generalizing s with
  | nil =>
    simp only [readFrom_nil, Option.map_eq_some_iff, List.nil_eq_append_iff]
    constructor
    · rintro ⟨a, ha, rfl⟩
      exact ⟨[], [], a, ⟨rfl, rfl⟩, ha, rfl⟩
    · rintro ⟨_, _, a, ⟨rfl, rfl⟩, ha, has⟩
      cases has
      exact ⟨a, ha, rfl⟩
  | cons t ts ih =>
    rw [readFrom_cons]
    cases hfeed : p.feed s t with
    | some s' =>
      simp only [hfeed, Option.bind_some, ih]
      constructor
      · rintro ⟨us, vs, a, rfl, ha, has⟩
        exact ⟨t :: us, vs, a, rfl, readFrom_cons_eq_some_iff.2 ⟨s', hfeed, ha⟩, has⟩
      · rintro ⟨us, vs, a, hts, ha, has⟩
        cases us with
        | nil =>
          -- The phrase could end here, so the token cannot come after it.
          cases hts
          obtain ⟨s'', hs'', -⟩ := Option.bind_eq_some_iff.1 has
          exact absurd (hp.next s a t s' ha hfeed) (hends _ (hleave _ t s'' hs''))
        | cons u us =>
          cases hts
          obtain ⟨s'', hs'', ha⟩ := readFrom_cons_eq_some_iff.1 ha
          rw [hfeed] at hs''
          cases hs''
          exact ⟨us, vs, a, rfl, ha, has⟩
    | none =>
      simp only [hfeed, Option.bind_assoc, Option.bind_eq_some_iff (x := p.finish s)]
      constructor
      · rintro ⟨a, ha, has⟩
        exact ⟨[], t :: ts, a, rfl, ha, has⟩
      · rintro ⟨us, vs, a, hts, ha, has⟩
        cases us with
        | nil =>
          cases hts
          exact ⟨a, ha, has⟩
        | cons u us =>
          cases hts
          obtain ⟨s', hs', -⟩ := readFrom_cons_eq_some_iff.1 ha
          rw [hfeed] at hs'
          cases hs'

/-- Between phrases: the next one begins, unless nothing comes. -/
theorem readFrom_items_cons (hp : p.Exact L π) (hleave : ∀ done t s, leave done t = some s → t.kind ∈ kinds)
    (hends : ∀ k ∈ kinds, k ∉ π.next) (done : List α) (t : Token) (ts : List Token) (as : List α) :
    (p.items leave).readFrom ⟨done, none⟩ (t :: ts) = some as ↔
      ∃ us vs a, ts = us ++ vs ∧ L (t :: us) a ∧ p.readAfter leave (done ++ [a]) vs = some as := by
  rw [readFrom_items_none, Option.bind_eq_some_iff]
  simp only [readFrom_items_some hp hleave hends, ← hp.reads, read?_eq, readFrom_cons_eq_some_iff]
  constructor
  · rintro ⟨s, hs, us, vs, a, hts, ha, has⟩
    exact ⟨us, vs, a, hts, ⟨s, hs, ha⟩, has⟩
  · rintro ⟨us, vs, a, hts, ⟨s, hs, ha⟩, has⟩
    exact ⟨s, hs, us, vs, a, hts, ha, has⟩

theorem Exact.items {M : Phrase (List α)} (hp : p.Exact L π)
    (hleave : ∀ done t s, leave done t = some s → t.kind ∈ kinds) (hends : ∀ k ∈ kinds, k ∉ π.next)
    (hreads : ∀ ts as, (p.items leave).read? ts = some as ↔ M ts as) :
    (p.items leave).Exact M (π.repeated kinds) where
  reads := hreads
  empty _ _ := rfl
  first t s h := by
    obtain ⟨s', hs', -⟩ := Option.map_eq_some_iff.1 h
    exact hp.first t s' hs'
  next s as t s' hs ht := by
    obtain ⟨done, current⟩ := s
    cases current with
    | none =>
      obtain ⟨s'', hs'', -⟩ := Option.map_eq_some_iff.1 ht
      simp [Profile.repeated, hp.first t s'' hs'']
    | some s =>
      obtain ⟨a, ha, -⟩ := Option.map_eq_some_iff.1 hs
      cases hfeed : p.feed s t with
      | some s'' => simp [Profile.repeated, hp.next s a t s'' ha hfeed]
      | none =>
        simp only [hfeed, ha, Option.bind_some] at ht
        simp [Profile.repeated, hleave _ t s' ht]
  live s := by
    obtain ⟨done, current⟩ := s
    cases current with
    | none => exact ⟨[], done, rfl⟩
    | some s =>
      obtain ⟨ts, a, ha⟩ := hp.live s
      exact ⟨ts, done ++ [a], (readFrom_items_some hp hleave hends done s ts _).2
        ⟨ts, [], a, by simp, ha, rfl⟩⟩

end Items

/-! ## Any number of phrases -/

theorem star_nil_iff (hL : ∀ a, ¬ L [] a) {as : List α} : Star L [] as ↔ as = [] := by
  constructor
  · intro h
    generalize hts : ([] : List Token) = ts at h
    cases h with
    | nil => rfl
    | cons h hs =>
      obtain ⟨rfl, -⟩ := List.nil_eq_append_iff.1 hts
      exact absurd h (hL _)
  · rintro rfl
    exact .nil

theorem star_cons_iff (hL : ∀ a, ¬ L [] a) {t : Token} {ts : List Token} {as : List α} :
    Star L (t :: ts) as ↔
      ∃ us vs a bs, ts = us ++ vs ∧ L (t :: us) a ∧ Star L vs bs ∧ as = a :: bs := by
  constructor
  · intro h
    generalize hts : t :: ts = ts' at h
    cases h with
    | nil => cases hts
    | @cons us vs a bs h hs =>
      cases us with
      | nil => exact absurd h (hL _)
      | cons u us =>
        cases hts
        exact ⟨us, vs, a, bs, rfl, h, hs, rfl⟩
  · rintro ⟨us, vs, a, bs, rfl, h, hs, rfl⟩
    exact .cons h hs

theorem Exact.many (hp : p.Exact L π) (hne : π.empty = false) (hends : π.Ends π) :
    p.many.Exact (Star L) (π.repeated π.first) := by
  have hL := hp.not_nil hne
  have hleave : ∀ done t s, p.afterPhrase done t = some s → t.kind ∈ π.first := by
    intro done t s h
    obtain ⟨s', hs', -⟩ := Option.map_eq_some_iff.1 h
    exact hp.first t s' hs'
  have hends' : ∀ k ∈ π.first, k ∉ π.next := fun k hk hk' => hends k hk' hk
  -- After a phrase the repetition reads on as between two phrases.
  have hafter : ∀ done vs, p.readAfter p.afterPhrase done vs =
      (p.items p.afterPhrase).readFrom ⟨done, none⟩ vs := by
    intro done vs
    cases vs with
    | nil => rfl
    | cons v vs => rw [readFrom_cons]; rfl
  have hreads : ∀ (n : Nat) (ts : List Token), ts.length ≤ n → ∀ done as,
      (p.items p.afterPhrase).readFrom ⟨done, none⟩ ts = some as ↔
        ∃ bs, Star L ts bs ∧ as = done ++ bs := by
    intro n
    induction n with
    | zero =>
      intro ts hts done as
      obtain rfl := List.eq_nil_of_length_eq_zero (Nat.le_zero.1 hts)
      simp [readFrom_nil, star_nil_iff hL, eq_comm]
    | succ n ih =>
      intro ts hts done as
      cases ts with
      | nil => simp [readFrom_nil, star_nil_iff hL, eq_comm]
      | cons t ts =>
        rw [readFrom_items_cons hp hleave hends']
        simp only [hafter, star_cons_iff hL]
        constructor
        · rintro ⟨us, vs, a, rfl, ha, has⟩
          obtain ⟨bs, hbs, rfl⟩ := (ih vs (by simp at hts; omega) _ as).1 has
          exact ⟨a :: bs, ⟨us, vs, a, bs, rfl, ha, hbs, rfl⟩, by simp⟩
        · rintro ⟨_, ⟨us, vs, a, bs, rfl, ha, hbs, rfl⟩, rfl⟩
          exact ⟨us, vs, a, rfl, ha, (ih vs (by simp at hts; omega) _ _).2 ⟨bs, hbs, by simp⟩⟩
  refine Exact.items hp hleave hends' fun ts as => ?_
  rw [read?_eq, hreads ts.length ts (Nat.le_refl _)]
  simp

/-! ## Lists with commas -/

theorem commaList_nil_iff (hL : ∀ a, ¬ L [] a) {as : List α} : CommaList L [] as ↔ as = [] := by
  constructor
  · intro h
    generalize hts : ([] : List Token) = ts at h
    cases h with
    | nil => rfl
    | last h => exact absurd (hts ▸ h) (hL _)
    | cons h hcomma hs => simp at hts
  · rintro rfl
    exact .nil

/-- What may follow an item of a list: nothing, or a comma and the rest of the list. -/
def Follows (L : Phrase α) : Phrase (List α)
  | [], as => as = []
  | comma :: ts, as => comma.kind = .comma ∧ CommaList L ts as

theorem commaList_cons_iff (hL : ∀ a, ¬ L [] a) {t : Token} {ts : List Token} {as : List α} :
    CommaList L (t :: ts) as ↔
      ∃ us vs a bs, ts = us ++ vs ∧ L (t :: us) a ∧ Follows L vs bs ∧ as = a :: bs := by
  constructor
  · intro h
    generalize hts : t :: ts = ts' at h
    cases h with
    | nil => cases hts
    | @last us a h =>
      subst hts
      exact ⟨ts, [], a, [], by simp, h, rfl, rfl⟩
    | @cons us vs comma a bs h hcomma hs =>
      cases us with
      | nil => exact absurd h (hL _)
      | cons u us =>
        cases hts
        exact ⟨us, comma :: vs, a, bs, rfl, h, ⟨hcomma, hs⟩, rfl⟩
  · rintro ⟨us, vs, a, bs, rfl, h, hvs, rfl⟩
    cases vs with
    | nil =>
      cases hvs
      simpa using CommaList.last h
    | cons comma vs => exact .cons h hvs.1 hvs.2

theorem Exact.commaList (hp : p.Exact L π) (hne : π.empty = false) (hcomma : .comma ∉ π.next) :
    p.commaList.Exact (CommaList L) (π.repeated [.comma]) := by
  have hL := hp.not_nil hne
  have hleave : ∀ done t s, p.afterItem done t = some s → t.kind ∈ [Kind.comma] := by
    intro done t s h
    by_cases hkind : t.kind = .comma
    · simp [hkind]
    · simp [afterItem, hkind] at h
  have hends : ∀ k ∈ [Kind.comma], k ∉ π.next := by simpa using hcomma
  have hreads : ∀ (n : Nat) (ts : List Token), ts.length ≤ n → ∀ done as,
      (p.items p.afterItem).readFrom ⟨done, none⟩ ts = some as ↔
        ∃ bs, CommaList L ts bs ∧ as = done ++ bs := by
    intro n
    induction n with
    | zero =>
      intro ts hts done as
      obtain rfl := List.eq_nil_of_length_eq_zero (Nat.le_zero.1 hts)
      simp [readFrom_nil, commaList_nil_iff hL, eq_comm]
    | succ n ih =>
      intro ts hts done as
      cases ts with
      | nil => simp [readFrom_nil, commaList_nil_iff hL, eq_comm]
      | cons t ts =>
        have hafter : ∀ vs, vs.length ≤ n → ∀ done, p.readAfter p.afterItem done vs = some as ↔
            ∃ bs, Follows L vs bs ∧ as = done ++ bs := by
          intro vs hvs done
          cases vs with
          | nil => simp [readAfter, Follows, eq_comm]
          | cons v vs =>
            have hrest := ih vs (by simp at hvs; omega) done as
            by_cases hv : v.kind = .comma
            · simp [readAfter, afterItem, Follows, hv, hrest]
            · simp [readAfter, afterItem, Follows, hv]
        rw [readFrom_items_cons hp hleave hends]
        simp only [commaList_cons_iff hL]
        constructor
        · rintro ⟨us, vs, a, rfl, ha, has⟩
          obtain ⟨bs, hbs, rfl⟩ := (hafter vs (by simp at hts; omega) _).1 has
          exact ⟨a :: bs, ⟨us, vs, a, bs, rfl, ha, hbs, rfl⟩, by simp⟩
        · rintro ⟨_, ⟨us, vs, a, bs, rfl, ha, hbs, rfl⟩, rfl⟩
          exact ⟨us, vs, a, rfl, ha, (hafter vs (by simp at hts; omega) _).2 ⟨bs, hbs, by simp⟩⟩
  refine Exact.items hp hleave hends fun ts as => ?_
  rw [read?_eq, hreads ts.length ts (Nat.le_refl _)]
  simp

end DeriveKit.Reader
