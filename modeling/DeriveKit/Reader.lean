import DeriveKit.Token

/-!
Readers: machines that are fed one token at a time.

A reader refuses a token as soon as no continuation could make sense of it, so the token at which
reading fails is the first that cannot be part of a sentence. Readers are built from smaller ones;
in a sequence each token goes to the first reader as long as that one takes it, and only then does
the next one start. The ways of building are reducible: the states of a compound reader are pairs
and choices of the states of its parts.
-/
namespace DeriveKit

/-- A machine over tokens. `feed` is undefined where the token is refused, `finish` where more
tokens are needed. -/
structure Reader (α : Type) : Type 1 where
  State : Type
  start : State
  feed : State → Token → Option State
  finish : State → Option α

namespace Reader

open DeriveKit.Token (Kind)

variable {α β : Type}

/-- The state after a run of tokens. -/
def feedAll (r : Reader α) : r.State → List Token → Option r.State
  | s, [] => some s
  | s, t :: ts => (r.feed s t).bind fun s => r.feedAll s ts

/-- What a run of tokens is read as, if it is a sentence. -/
def read? (r : Reader α) (ts : List Token) : Option α := (r.feedAll r.start ts).bind r.finish

/-- One token of which `f` makes something. -/
@[reducible]
def one (f : Token → Option α) : Reader α where
  State := Option α
  start := none
  feed
    | none, t => (f t).map some
    | some _, _ => none
  finish := id

/-- One token of the given kind. -/
@[reducible]
def kind (k : Kind) : Reader Unit := one fun t => if t.kind = k then some () else none

/-- The text of one token of the given kind. -/
@[reducible]
def textOf (k : Kind) : Reader String := one fun t => if t.kind = k then some t.text else none

@[reducible]
def map (f : α → β) (r : Reader α) : Reader β where
  State := r.State
  start := r.start
  feed := r.feed
  finish s := (r.finish s).map f

/-- Reads only what `f` makes something of. -/
@[reducible]
def filterMap (f : α → Option β) (r : Reader α) : Reader β where
  State := r.State
  start := r.start
  feed := r.feed
  finish s := (r.finish s).bind f

/-- The states of a sequence: in the first reader, or in the second with the first one's result. -/
inductive SeqState (σ τ α : Type) where
  | first (s : σ)
  | second (a : α) (s : τ)

/-- One reader, then another. -/
@[reducible]
def andThen (p : Reader α) (q : Reader β) : Reader (α × β) where
  State := SeqState p.State q.State α
  start := .first p.start
  feed
    | .first s, t =>
      match p.feed s t with
      | some s => some (.first s)
      | none => (p.finish s).bind fun a => (q.feed q.start t).map (.second a)
    | .second a s, t => (q.feed s t).map (.second a)
  finish
    | .first s => (p.finish s).bind fun a => (q.finish q.start).map (a, ·)
    | .second a s => (q.finish s).map (a, ·)

/-- A sequence of which only the second result counts. -/
@[reducible]
def skipThen (p : Reader α) (q : Reader β) : Reader β := (p.andThen q).map (·.2)

/-- A sequence of which only the first result counts. -/
@[reducible]
def thenSkip (p : Reader α) (q : Reader β) : Reader α := (p.andThen q).map (·.1)

/-- The states of a choice: not yet made, or made. -/
inductive AltState (σ τ : Type) where
  | unchosen
  | left (s : σ)
  | right (s : τ)

/-- One of two readers, chosen by the first token. -/
@[reducible]
def orElse (p q : Reader α) : Reader α where
  State := AltState p.State q.State
  start := .unchosen
  feed
    | .unchosen, t =>
      match p.feed p.start t with
      | some s => some (.left s)
      | none => (q.feed q.start t).map .right
    | .left s, t => (p.feed s t).map .left
    | .right s, t => (q.feed s t).map .right
  finish
    | .unchosen => (p.finish p.start).orElse fun _ => q.finish q.start
    | .left s => p.finish s
    | .right s => q.finish s

/-- A reader that may be left out. -/
@[reducible]
def optional (p : Reader α) : Reader (Option α) where
  State := Option p.State
  start := none
  feed
    | none, t => (p.feed p.start t).map some
    | some s, t => (p.feed s t).map some
  finish
    | none => some none
    | some s => (p.finish s).map some

/-- The states of a repetition: what was read, and the reader at work, if any. -/
structure ManyState (σ α : Type) where
  done : List α
  current : Option σ

/-- A reader any number of times. -/
@[reducible]
def many (p : Reader α) : Reader (List α) where
  State := ManyState p.State α
  start := ⟨[], none⟩
  feed
    | ⟨done, none⟩, t => (p.feed p.start t).map fun s => ⟨done, some s⟩
    | ⟨done, some s⟩, t =>
      match p.feed s t with
      | some s => some ⟨done, some s⟩
      | none =>
        (p.finish s).bind fun a => (p.feed p.start t).map fun s => ⟨done ++ [a], some s⟩
  finish
    | ⟨done, none⟩ => some done
    | ⟨done, some s⟩ => (p.finish s).map fun a => done ++ [a]

/-- A reader any number of times with commas between, and perhaps one after the last. -/
@[reducible]
def commaList (p : Reader α) : Reader (List α) where
  State := ManyState p.State α
  start := ⟨[], none⟩
  feed
    | ⟨done, none⟩, t => (p.feed p.start t).map fun s => ⟨done, some s⟩
    | ⟨done, some s⟩, t =>
      match p.feed s t with
      | some s => some ⟨done, some s⟩
      | none =>
        (p.finish s).bind fun a => if t.kind = .comma then some ⟨done ++ [a], none⟩ else none
  finish
    | ⟨done, none⟩ => some done
    | ⟨done, some s⟩ => (p.finish s).map fun a => done ++ [a]

/-- Adds the place of the first token. -/
@[reducible]
def located (p : Reader α) : Reader (α × Option Position) where
  State := Option Position × p.State
  start := (none, p.start)
  feed
    | (pos, s), t => (p.feed s t).map fun s => (some (pos.getD t.pos), s)
  finish
    | (pos, s) => (p.finish s).map (·, pos)

end Reader

end DeriveKit
