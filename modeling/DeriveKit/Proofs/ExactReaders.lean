import DeriveKit.Proofs.Grammar

/-!
# Laws of readers

A reader is exact for a phrase if it reads just the runs of tokens that are such a phrase, as what
they stand for, and if none of its states is a dead end. Exactness is kept by the ways of building
readers. In a sequence a token goes to the first reader as long as that one takes it, so exactness
needs that a phrase which could end here is never continued by a token that may begin the next one.
A `Profile` holds what decides this: which kinds of tokens begin a phrase, and which continue one
that could have ended.
-/
namespace DeriveKit.Reader

open DeriveKit.Token (Kind)
open DeriveKit.Grammar

variable {α β γ : Type}

/-! ## Reading from a state -/

/-- What a run of tokens is read as from a state on. -/
def readFrom (r : Reader α) (s : r.State) (ts : List Token) : Option α :=
  (r.feedAll s ts).bind r.finish

section ReadFrom

variable {r : Reader α} {s : r.State} {t : Token} {ts us : List Token} {a : α}

theorem read?_eq (r : Reader α) (ts : List Token) : r.read? ts = r.readFrom r.start ts := rfl

theorem readFrom_nil (r : Reader α) (s : r.State) : r.readFrom s [] = r.finish s := rfl

theorem readFrom_cons (r : Reader α) (s : r.State) (t : Token) (ts : List Token) :
    r.readFrom s (t :: ts) = (r.feed s t).bind fun s' => r.readFrom s' ts := by
  rw [readFrom, feedAll, Option.bind_assoc]
  rfl

theorem readFrom_cons_eq_some_iff :
    r.readFrom s (t :: ts) = some a ↔ ∃ s', r.feed s t = some s' ∧ r.readFrom s' ts = some a := by
  rw [readFrom_cons, Option.bind_eq_some_iff]

theorem readFrom_of_feed {s' : r.State} (h : r.feed s t = some s') (ts : List Token) :
    r.readFrom s (t :: ts) = r.readFrom s' ts := by
  rw [readFrom_cons, h, Option.bind_some]

theorem feedAll_append (r : Reader α) (s : r.State) (ts us : List Token) :
    r.feedAll s (ts ++ us) = (r.feedAll s ts).bind fun s' => r.feedAll s' us := by
  induction ts generalizing s with
  | nil => rfl
  | cons t ts ih =>
    simp only [List.cons_append, feedAll]
    cases r.feed s t with
    | none => rfl
    | some s' => exact ih s'

/-- What each token keeps, a run of tokens keeps. -/
theorem feedAll_invariant {P : List Token → r.State → Prop} (hstart : P [] r.start)
    (hstep : ∀ ts s t s', P ts s → r.feed s t = some s' → P (ts ++ [t]) s')
    (h : r.feedAll r.start ts = some s) : P ts s := by
  suffices hrun : ∀ (ts us : List Token) (s s' : r.State), P us s → r.feedAll s ts = some s' →
      P (us ++ ts) s' from hrun ts [] r.start s hstart h
  intro ts
  induction ts with
  | nil =>
    intro us s s' hs h
    cases h
    simpa using hs
  | cons t ts ih =>
    intro us s s' hs h
    obtain ⟨s₁, h₁, h⟩ := Option.bind_eq_some_iff.1 h
    simpa using ih (us ++ [t]) s₁ s' (hstep us s t s₁ hs h₁) h

theorem readFrom_append (r : Reader α) (s : r.State) (ts us : List Token) :
    r.readFrom s (ts ++ us) = (r.feedAll s ts).bind fun s' => r.readFrom s' us := by
  rw [readFrom, feedAll_append, Option.bind_assoc]
  rfl

/-- A reader that works as `r` does, on other states, reads what `r` reads. -/
theorem readFrom_embed (r : Reader α) (r' : Reader β) (f : r.State → r'.State) (g : α → β)
    (hfeed : ∀ s t, r'.feed (f s) t = (r.feed s t).map f)
    (hfinish : ∀ s, r'.finish (f s) = (r.finish s).map g) (s : r.State) (ts : List Token) :
    r'.readFrom (f s) ts = (r.readFrom s ts).map g := by
  induction ts generalizing s with
  | nil => exact hfinish s
  | cons t ts ih =>
    rw [readFrom_cons, readFrom_cons, hfeed]
    cases r.feed s t with
    | none => rfl
    | some s' => exact ih s'

end ReadFrom

/-! ## Exact readers -/

/-- How phrases of a sort begin and go on. -/
structure Profile where
  /-- Whether the empty run may be a phrase. -/
  empty : Bool
  /-- The kinds of tokens that begin a phrase. -/
  first : List Kind
  /-- The kinds of tokens that continue a phrase which could have ended. -/
  next : List Kind

namespace Profile

/-- A phrase that could have ended is not continued by a token that begins the other. -/
def Ends (π ρ : Profile) : Prop := ∀ k ∈ π.next, k ∉ ρ.first

/-- No token begins both phrases. -/
def Apart (π ρ : Profile) : Prop := ∀ k ∈ π.first, k ∉ ρ.first

/-- Whatever `π` allows, `ρ` allows. -/
def Within (π ρ : Profile) : Prop :=
  (π.empty = true → ρ.empty = true) ∧ (∀ k ∈ π.first, k ∈ ρ.first) ∧ ∀ k ∈ π.next, k ∈ ρ.next

instance (π ρ : Profile) : Decidable (Ends π ρ) := inferInstanceAs (Decidable (∀ k ∈ _, _))

instance (π ρ : Profile) : Decidable (Apart π ρ) := inferInstanceAs (Decidable (∀ k ∈ _, _))

instance (π ρ : Profile) : Decidable (Within π ρ) := inferInstanceAs (Decidable (_ ∧ _ ∧ _))

theorem Within.refl (π : Profile) : π.Within π := ⟨id, fun _ h => h, fun _ h => h⟩

def seq (π ρ : Profile) : Profile where
  empty := π.empty && ρ.empty
  first := if π.empty then π.first ++ ρ.first else π.first
  next := if ρ.empty then ρ.next ++ (π.next ++ ρ.first) else ρ.next

def alt (π ρ : Profile) : Profile where
  empty := false
  first := π.first ++ ρ.first
  next := π.next ++ ρ.next

/-- Any number of phrases, with tokens of the kinds `after` behind each. -/
def repeated (π : Profile) (after : List Kind) : Profile where
  empty := true
  first := π.first
  next := π.first ++ (after ++ π.next)

end Profile

/-- The reader reads the phrases of `L` and nothing else, they begin and go on as `π` says, and from
every state some run of tokens leads to a phrase. -/
structure Exact (r : Reader α) (L : Phrase α) (π : Profile) : Prop where
  reads : ∀ ts a, r.read? ts = some a ↔ L ts a
  empty : ∀ a, L [] a → π.empty = true
  first : ∀ t s, r.feed r.start t = some s → t.kind ∈ π.first
  next : ∀ s a t s', r.finish s = some a → r.feed s t = some s' → t.kind ∈ π.next
  live : ∀ s, ∃ ts a, r.readFrom s ts = some a

section

variable {p r : Reader α} {q : Reader β} {L : Phrase α} {M : Phrase β} {π ρ : Profile}

theorem Exact.congr {L' : Phrase α} (h : r.Exact L π) (hπ : π.Within ρ)
    (hL : ∀ ts a, L ts a ↔ L' ts a) : r.Exact L' ρ where
  reads ts a := (h.reads ts a).trans (hL ts a)
  empty a ha := hπ.1 (h.empty a ((hL [] a).2 ha))
  first t s ht := hπ.2.1 _ (h.first t s ht)
  next s a t s' hs ht := hπ.2.2 _ (h.next s a t s' hs ht)
  live := h.live

/-- A phrase that is never empty is not read before any token. -/
theorem Exact.not_nil (h : r.Exact L π) (hne : π.empty = false) (a : α) : ¬ L [] a := by
  intro ha
  rw [h.empty a ha] at hne
  cases hne

theorem Exact.finish_start (h : r.Exact L π) (hne : π.empty = false) : r.finish r.start = none := by
  cases hf : r.finish r.start with
  | none => rfl
  | some a => exact absurd ((h.reads [] a).1 hf) (h.not_nil hne a)

/-- A run is the beginning of a phrase exactly if the reader takes it. -/
theorem Exact.viable_iff (h : r.Exact L π) (ts : List Token) :
    (∃ rest a, L (ts ++ rest) a) ↔ ∃ s, r.feedAll r.start ts = some s := by
  constructor
  · rintro ⟨rest, a, ha⟩
    have hread := (h.reads _ a).2 ha
    rw [read?_eq, readFrom_append] at hread
    obtain ⟨s, hs, -⟩ := Option.bind_eq_some_iff.1 hread
    exact ⟨s, hs⟩
  · rintro ⟨s, hs⟩
    obtain ⟨rest, a, ha⟩ := h.live s
    refine ⟨rest, a, (h.reads _ a).1 ?_⟩
    rw [read?_eq, readFrom_append, hs]
    exact ha

/-! ## One token -/

theorem exact_one (f : Token → Option α) (kinds : List Kind)
    (hkinds : ∀ t a, f t = some a → t.kind ∈ kinds) (hsome : ∃ t a, f t = some a) :
    (one f).Exact (fun ts a => ∃ t, ts = [t] ∧ f t = some a) ⟨false, kinds, []⟩ where
  reads ts a := by
    cases ts with
    | nil => simp [read?, feedAll]
    | cons t ts =>
      cases ts with
      | nil => cases h : f t <;> simp [read?, feedAll, h]
      | cons u us => cases h : f t <;> simp [read?, feedAll, h]
  empty a h := by
    obtain ⟨t, ht, -⟩ := h
    cases ht
  first t s h := by
    obtain ⟨a, ha, -⟩ := Option.map_eq_some_iff.1 h
    exact hkinds t a ha
  next s a t s' hs ht := by
    cases s with
    | none => cases hs
    | some b => cases ht
  live s := by
    cases s with
    | some a => exact ⟨[], a, rfl⟩
    | none =>
      obtain ⟨t, a, ha⟩ := hsome
      exact ⟨[t], a, by simp [readFrom, feedAll, ha]⟩

theorem exact_kind (k : Kind) :
    (kind k).Exact (fun ts _ => ∃ t, ts = [t] ∧ t.kind = k) ⟨false, [k], []⟩ := by
  have h := exact_one (fun t => if t.kind = k then some () else none) [k]
    (by simp) ⟨⟨k, "x", .start⟩, (), by simp⟩
  exact h.congr (.refl _) (by simp)

theorem exact_textOf (k : Kind) :
    (textOf k).Exact (fun ts text => ∃ t, ts = [t] ∧ t.kind = k ∧ t.text = text) ⟨false, [k], []⟩ := by
  have h := exact_one (fun t => if t.kind = k then some t.text else none) [k]
    (by simp) ⟨⟨k, "x", .start⟩, "x", by simp⟩
  exact h.congr (.refl _) (by simp)

/-! ## Passing on what was read -/

theorem readFrom_map (f : α → β) (r : Reader α) (s : r.State) (ts : List Token) :
    (r.map f).readFrom s ts = (r.readFrom s ts).map f :=
  readFrom_embed r (r.map f) id f (fun _ _ => by simp) (fun _ => rfl) s ts

theorem Exact.map (h : r.Exact L π) (f : α → β) : (r.map f).Exact (Phrase.map f L) π where
  reads ts b := by
    rw [read?_eq, readFrom_map, Option.map_eq_some_iff]
    exact exists_congr fun a => and_congr_left fun _ => h.reads ts a
  empty b hb := by
    obtain ⟨a, ha, -⟩ := hb
    exact h.empty a ha
  first := h.first
  next s b t s' hs ht := by
    obtain ⟨a, ha, -⟩ := Option.map_eq_some_iff.1 hs
    exact h.next s a t s' ha ht
  live s := by
    obtain ⟨ts, a, ha⟩ := h.live s
    exact ⟨ts, f a, by rw [readFrom_map, ha]; rfl⟩

theorem readFrom_filterMap (f : α → Option β) (r : Reader α) (s : r.State) (ts : List Token) :
    (r.filterMap f).readFrom s ts = (r.readFrom s ts).bind f := by
  induction ts generalizing s with
  | nil => rfl
  | cons t ts ih =>
    rw [readFrom_cons, readFrom_cons, Option.bind_assoc]
    exact congrArg (Option.bind (r.feed s t)) (funext ih)

/-- Some phrases may be left out, as long as every state still leads to one that is kept. -/
theorem Exact.filterMap (h : r.Exact L π) (f : α → Option β) (empty : Bool)
    (hempty : ∀ a b, L [] a → f a = some b → empty = true)
    (hlive : ∀ s, ∃ ts a b, r.readFrom s ts = some a ∧ f a = some b) :
    (r.filterMap f).Exact (fun ts b => ∃ a, L ts a ∧ f a = some b) ⟨empty, π.first, π.next⟩ where
  reads ts b := by
    rw [read?_eq, readFrom_filterMap, Option.bind_eq_some_iff]
    exact exists_congr fun a => and_congr_left fun _ => h.reads ts a
  empty b hb := by
    obtain ⟨a, ha, hb⟩ := hb
    exact hempty a b ha hb
  first := h.first
  next s b t s' hs ht := by
    obtain ⟨a, ha, -⟩ := Option.bind_eq_some_iff.1 hs
    exact h.next s a t s' ha ht
  live s := by
    obtain ⟨ts, a, b, ha, hb⟩ := hlive s
    exact ⟨ts, b, by rw [readFrom_filterMap, ha]; exact hb⟩

/-! ## Sequences -/

theorem readFrom_second (p : Reader α) (q : Reader β) (a : α) (s : q.State) (ts : List Token) :
    (p.andThen q).readFrom (.second a s) ts = (q.readFrom s ts).map (a, ·) :=
  readFrom_embed q (p.andThen q) (.second a) (a, ·) (fun _ _ => rfl) (fun _ => rfl) s ts

theorem readFrom_first (hp : p.Exact L π) (hq : q.Exact M ρ) (hends : π.Ends ρ) (s : p.State)
    (ts : List Token) (a : α) (b : β) :
    (p.andThen q).readFrom (.first s) ts = some (a, b) ↔
      ∃ us vs, ts = us ++ vs ∧ p.readFrom s us = some a ∧ q.read? vs = some b := by
  induction ts generalizing s with
  | nil =>
    simp only [readFrom_nil, Option.bind_eq_some_iff, Option.map_eq_some_iff, List.nil_eq_append_iff]
    constructor
    · rintro ⟨a', ha, b', hb, hab⟩
      cases hab
      exact ⟨[], [], ⟨rfl, rfl⟩, ha, hb⟩
    · rintro ⟨_, _, ⟨rfl, rfl⟩, ha, hb⟩
      exact ⟨a, ha, b, hb, rfl⟩
  | cons t ts ih =>
    rw [readFrom_cons]
    cases hfeed : p.feed s t with
    | some s' =>
      simp only [hfeed, Option.bind_some, ih s']
      constructor
      · rintro ⟨us, vs, rfl, ha, hb⟩
        exact ⟨t :: us, vs, rfl, readFrom_cons_eq_some_iff.2 ⟨s', hfeed, ha⟩, hb⟩
      · rintro ⟨us, vs, hts, ha, hb⟩
        cases us with
        | nil =>
          -- The first phrase could end here, so the token cannot begin the second.
          cases hts
          obtain ⟨s'', hs'', -⟩ := readFrom_cons_eq_some_iff.1 hb
          exact absurd (hq.first t s'' hs'') (hends _ (hp.next s a t s' ha hfeed))
        | cons u us =>
          cases hts
          obtain ⟨s'', hs'', ha⟩ := readFrom_cons_eq_some_iff.1 ha
          rw [hfeed] at hs''
          cases hs''
          exact ⟨us, vs, rfl, ha, hb⟩
    | none =>
      simp only [hfeed, Option.bind_eq_some_iff, Option.map_eq_some_iff]
      constructor
      · rintro ⟨_, ⟨a', ha, s', hs', rfl⟩, hread⟩
        rw [readFrom_second] at hread
        obtain ⟨b', hb, hab⟩ := Option.map_eq_some_iff.1 hread
        cases hab
        exact ⟨[], t :: ts, rfl, ha, readFrom_cons_eq_some_iff.2 ⟨s', hs', hb⟩⟩
      · rintro ⟨us, vs, hts, ha, hb⟩
        cases us with
        | nil =>
          cases hts
          obtain ⟨s', hs', hb⟩ := readFrom_cons_eq_some_iff.1 hb
          refine ⟨.second a s', ⟨a, ha, s', hs', rfl⟩, ?_⟩
          rw [readFrom_second, hb]
          rfl
        | cons u us =>
          cases hts
          obtain ⟨s', hs', -⟩ := readFrom_cons_eq_some_iff.1 ha
          rw [hfeed] at hs'
          cases hs'

theorem Exact.andThen (hp : p.Exact L π) (hq : q.Exact M ρ) (hends : π.Ends ρ) :
    (p.andThen q).Exact (fun ts ab => ∃ us vs, ts = us ++ vs ∧ L us ab.1 ∧ M vs ab.2) (π.seq ρ) where
  reads ts ab := by
    rw [read?_eq, readFrom_first hp hq hends]
    simp only [← read?_eq, hp.reads, hq.reads]
  empty ab h := by
    obtain ⟨us, vs, hts, ha, hb⟩ := h
    obtain ⟨rfl, rfl⟩ := List.nil_eq_append_iff.1 hts
    simp [Profile.seq, hp.empty _ ha, hq.empty _ hb]
  first t s h := by
    simp only [Profile.seq]
    cases hfeed : p.feed p.start t with
    | some s' =>
      have := hp.first t s' hfeed
      split <;> simp [this]
    | none =>
      simp only [hfeed, Option.bind_eq_some_iff, Option.map_eq_some_iff] at h
      obtain ⟨a, ha, s', hs', -⟩ := h
      simp [hp.empty a ((hp.reads [] a).1 ha), hq.first t s' hs']
  next s ab t s' hs ht := by
    simp only [Profile.seq]
    cases s with
    | second a s =>
      obtain ⟨b, hb, -⟩ := Option.map_eq_some_iff.1 hs
      obtain ⟨s'', hs'', -⟩ := Option.map_eq_some_iff.1 ht
      have := hq.next s b t s'' hb hs''
      split <;> simp [this]
    | first s =>
      -- The second phrase may be empty here.
      simp only [Option.bind_eq_some_iff, Option.map_eq_some_iff] at hs
      obtain ⟨a, ha, b, hb, -⟩ := hs
      rw [if_pos (hq.empty b ((hq.reads [] b).1 hb))]
      cases hfeed : p.feed s t with
      | some s'' => simp [hp.next s a t s'' ha hfeed]
      | none =>
        simp only [hfeed, Option.bind_eq_some_iff, Option.map_eq_some_iff] at ht
        obtain ⟨_, -, s'', hs'', -⟩ := ht
        simp [hq.first t s'' hs'']
  live s := by
    cases s with
    | second a s =>
      obtain ⟨ts, b, hb⟩ := hq.live s
      exact ⟨ts, (a, b), by rw [readFrom_second, hb]; rfl⟩
    | first s =>
      obtain ⟨us, a, ha⟩ := hp.live s
      obtain ⟨vs, b, hb⟩ := hq.live q.start
      exact ⟨us ++ vs, (a, b), (readFrom_first hp hq hends s _ a b).2 ⟨us, vs, rfl, ha, hb⟩⟩

theorem Exact.skipThen (hp : p.Exact L π) (hq : q.Exact M ρ) (hends : π.Ends ρ) :
    (p.skipThen q).Exact (fun ts b => ∃ us vs, ts = us ++ vs ∧ (∃ a, L us a) ∧ M vs b) (π.seq ρ) := by
  refine ((hp.andThen hq hends).map _).congr (.refl _) fun ts b => ?_
  constructor
  · rintro ⟨⟨a, _⟩, ⟨us, vs, hts, ha, hb⟩, rfl⟩
    exact ⟨us, vs, hts, ⟨a, ha⟩, hb⟩
  · rintro ⟨us, vs, hts, ⟨a, ha⟩, hb⟩
    exact ⟨(a, b), ⟨us, vs, hts, ha, hb⟩, rfl⟩

theorem Exact.thenSkip (hp : p.Exact L π) (hq : q.Exact M ρ) (hends : π.Ends ρ) :
    (p.thenSkip q).Exact (fun ts a => ∃ us vs, ts = us ++ vs ∧ L us a ∧ ∃ b, M vs b) (π.seq ρ) := by
  refine ((hp.andThen hq hends).map _).congr (.refl _) fun ts a => ?_
  constructor
  · rintro ⟨⟨_, b⟩, ⟨us, vs, hts, ha, hb⟩, rfl⟩
    exact ⟨us, vs, hts, ha, b, hb⟩
  · rintro ⟨us, vs, hts, ha, b, hb⟩
    exact ⟨(a, b), ⟨us, vs, hts, ha, hb⟩, rfl⟩

/-- A phrase between two tokens, if the closing one never continues it. -/
theorem Exact.enclosed (hp : p.Exact L π) (left right : Kind) (hright : right ∉ π.next) :
    ((kind left).skipThen (p.thenSkip (kind right))).Exact
      (fun ts a => ∃ l us r, ts = l :: (us ++ [r]) ∧ l.kind = left ∧ L us a ∧ r.kind = right)
      ⟨false, [left], []⟩ := by
  have hends : π.Ends ⟨false, [right], []⟩ := by
    intro k hk hk'
    rw [List.mem_singleton.1 hk'] at hk
    exact hright hk
  have hstart : Profile.Ends ⟨false, [left], []⟩ (π.seq ⟨false, [right], []⟩) := by simp [Profile.Ends]
  refine ((exact_kind left).skipThen (hp.thenSkip (exact_kind right) hends) hstart).congr
    (by simp [Profile.Within, Profile.seq]) fun ts a => ?_
  constructor
  · rintro ⟨_, _, rfl, ⟨_, l, rfl, hl⟩, us, _, rfl, ha, _, r, rfl, hr⟩
    exact ⟨l, us, r, rfl, hl, ha, hr⟩
  · rintro ⟨l, us, r, rfl, hl, ha, hr⟩
    exact ⟨[l], _, rfl, ⟨(), l, rfl, hl⟩, us, [r], rfl, ha, (), r, rfl, hr⟩

/-! ## Choices -/

theorem readFrom_left (p q : Reader α) (s : p.State) (ts : List Token) :
    (p.orElse q).readFrom (.left s) ts = p.readFrom s ts := by
  rw [readFrom_embed p (p.orElse q) .left id (fun _ _ => rfl) (fun _ => by simp)]
  simp

theorem readFrom_right (p q : Reader α) (s : q.State) (ts : List Token) :
    (p.orElse q).readFrom (.right s) ts = q.readFrom s ts := by
  rw [readFrom_embed q (p.orElse q) .right id (fun _ _ => rfl) (fun _ => by simp)]
  simp

theorem Exact.orElse {q : Reader α} {M : Phrase α} (hp : p.Exact L π) (hq : q.Exact M ρ)
    (hpne : π.empty = false) (hqne : ρ.empty = false) (hapart : π.Apart ρ) :
    (p.orElse q).Exact (fun ts a => L ts a ∨ M ts a) (π.alt ρ) := by
  have hreads : ∀ ts a, (p.orElse q).read? ts = some a ↔ L ts a ∨ M ts a := by
    intro ts a
    rw [← hp.reads, ← hq.reads, read?_eq, read?_eq, read?_eq]
    cases ts with
    | nil => simp [readFrom_nil, hp.finish_start hpne, hq.finish_start hqne]
    | cons t ts =>
      rw [readFrom_cons, readFrom_cons, readFrom_cons]
      cases h : p.feed p.start t with
      | none =>
        cases h' : q.feed q.start t with
        | none => simp [h, h']
        | some s' => simp [h, h', readFrom_right]
      | some s =>
        -- The token begins a phrase of the first sort, so it begins none of the second.
        have h' : q.feed q.start t = none := by
          rw [Option.eq_none_iff_forall_ne_some]
          intro s' hs'
          exact hapart _ (hp.first t s h) (hq.first t s' hs')
        simp [h, h', readFrom_left]
  refine ⟨hreads, ?_, ?_, ?_, ?_⟩
  · rintro a (ha | ha)
    · exact absurd ha (hp.not_nil hpne a)
    · exact absurd ha (hq.not_nil hqne a)
  · intro t s hs
    cases h : p.feed p.start t with
    | some s' => simp [Profile.alt, hp.first t s' h]
    | none =>
      simp only [h, Option.map_eq_some_iff] at hs
      obtain ⟨s', hs', -⟩ := hs
      simp [Profile.alt, hq.first t s' hs']
  · intro s a t s' hs ht
    cases s with
    | unchosen => simp [hp.finish_start hpne, hq.finish_start hqne] at hs
    | left s =>
      obtain ⟨s'', hs'', -⟩ := Option.map_eq_some_iff.1 ht
      simp [Profile.alt, hp.next s a t s'' hs hs'']
    | right s =>
      obtain ⟨s'', hs'', -⟩ := Option.map_eq_some_iff.1 ht
      simp [Profile.alt, hq.next s a t s'' hs hs'']
  · intro s
    cases s with
    | unchosen =>
      obtain ⟨ts, a, ha⟩ := hp.live p.start
      exact ⟨ts, a, (hreads ts a).2 (.inl ((hp.reads ts a).1 ha))⟩
    | left s =>
      obtain ⟨ts, a, ha⟩ := hp.live s
      exact ⟨ts, a, by rw [readFrom_left, ha]⟩
    | right s =>
      obtain ⟨ts, a, ha⟩ := hq.live s
      exact ⟨ts, a, by rw [readFrom_right, ha]⟩

theorem readFrom_optional_some (p : Reader α) (s : p.State) (ts : List Token) :
    p.optional.readFrom (some s) ts = (p.readFrom s ts).map some :=
  readFrom_embed p p.optional some some (fun _ _ => rfl) (fun _ => rfl) s ts

theorem Exact.optional (hp : p.Exact L π) (hne : π.empty = false) :
    p.optional.Exact
      (fun ts o => (ts = [] ∧ o = none) ∨ ∃ a, L ts a ∧ o = some a) (π.repeated []) where
  reads ts o := by
    rw [read?_eq]
    cases ts with
    | nil =>
      have hnil : ∀ a, ¬ L [] a := hp.not_nil hne
      simp [readFrom_nil, hnil, eq_comm]
    | cons t ts =>
      simp only [← hp.reads, read?_eq, readFrom_cons]
      cases p.feed p.start t with
      | none => simp
      | some s => simp [readFrom_optional_some, Option.map_eq_some_iff, eq_comm (a := o)]
  empty _ _ := rfl
  first t s h := by
    obtain ⟨s', hs', -⟩ := Option.map_eq_some_iff.1 h
    exact hp.first t s' hs'
  next s o t s' hs ht := by
    cases s with
    | none =>
      obtain ⟨s'', hs'', -⟩ := Option.map_eq_some_iff.1 ht
      simp [Profile.repeated, hp.first t s'' hs'']
    | some s =>
      obtain ⟨a, ha, -⟩ := Option.map_eq_some_iff.1 hs
      obtain ⟨s'', hs'', -⟩ := Option.map_eq_some_iff.1 ht
      simp [Profile.repeated, hp.next s a t s'' ha hs'']
  live s := by
    cases s with
    | none => exact ⟨[], none, rfl⟩
    | some s =>
      obtain ⟨ts, a, ha⟩ := hp.live s
      exact ⟨ts, some a, by rw [readFrom_optional_some, ha]; rfl⟩

/-! ## Places -/

theorem readFrom_located (p : Reader α) (pos : Option Position) (s : p.State) (ts : List Token) :
    p.located.readFrom (pos, s) ts = (p.readFrom s ts).map (·, pos.or (place ts)) := by
  induction ts generalizing pos s with
  | nil => cases pos <;> rfl
  | cons t ts ih =>
    rw [readFrom_cons, readFrom_cons]
    cases h : p.feed s t with
    | none => simp [h]
    | some s' =>
      simp only [h, Option.map_some, Option.bind_some, ih]
      cases pos <;> rfl

theorem Exact.located (hp : p.Exact L π) :
    p.located.Exact (fun ts a => L ts a.1 ∧ a.2 = place ts) π where
  reads ts a := by
    rw [read?_eq, readFrom_located, ← hp.reads, ← read?_eq, Option.map_eq_some_iff]
    constructor
    · rintro ⟨b, hb, rfl⟩
      exact ⟨hb, rfl⟩
    · rintro ⟨ha, hpos⟩
      exact ⟨a.1, ha, Prod.ext rfl hpos.symm⟩
  empty a h := hp.empty a.1 h.1
  first t s h := by
    obtain ⟨s', hs', -⟩ := Option.map_eq_some_iff.1 h
    exact hp.first t s' hs'
  next s a t s' hs ht := by
    obtain ⟨a', ha', -⟩ := Option.map_eq_some_iff.1 hs
    obtain ⟨s'', hs'', -⟩ := Option.map_eq_some_iff.1 ht
    exact hp.next s.2 a' t s'' ha' hs''
  live s := by
    obtain ⟨ts, a, ha⟩ := hp.live s.2
    exact ⟨ts, _, by rw [readFrom_located, ha]; rfl⟩

end

end DeriveKit.Reader
