import DeriveKit.Shape

/-!
What the helpers report while they work, and computations that report.

Events are reported as a list is walked, so a walk that stops early reports only what it passed.
Records of events go to the handlers of a logger.
-/
namespace DeriveKit

/-! ## Events -/

inductive Event where
  /-- An attribute with malformed arguments was passed over. -/
  | skipped (path : Path) (text : String)
  /-- A derive list was added to the declaration `ident`. -/
  | derivesAdded (path ident : String) (count : Nat)
  /-- The derive list of the declaration `ident` was extended. -/
  | derivesExtended (ident : String) (count : Nat)
  /-- Fields were appended to the declaration `ident`, which had the shape `before`. -/
  | fieldsAppended (count : Nat) (ident : String) (before after : Shape)
deriving Repr

namespace Event

/-- The helper that reports the event. -/
def logger : Event → String
  | skipped .. => "roids.attrs"
  | derivesAdded .. | derivesExtended .. => "roids.derive"
  | fieldsAppended .. => "roids.fields"

def message : Event → String
  | skipped path text =>
    "skipping malformed attribute `" ++ path.render ++ "`: " ++ (Cause.malformed text).message
  | derivesAdded path ident count =>
    "added `#[" ++ path ++ "(..)]` to `" ++ ident ++ "` with " ++ Text.decimal count
      ++ " entries"
  | derivesExtended ident count =>
    "extended derive list of `" ++ ident ++ "` with " ++ Text.decimal count ++ " entries"
  | fieldsAppended count ident before after =>
    let word := match after with
      | .tuple => "unnamed"
      | _ => after.name
    "appended " ++ Text.decimal count ++ " " ++ word ++ " fields to `" ++ ident ++ "` ("
      ++ before.name ++ " -> " ++ after.name ++ ")"

end Event

/-- A value and the events reported on the way to it. -/
structure Logged (α : Type) where
  events : List Event
  value : α
deriving Repr

namespace Logged

variable {α β : Type}

instance : Monad Logged where
  pure a := ⟨[], a⟩
  bind x f := ⟨x.events ++ (f x.value).events, (f x.value).value⟩

/-- Reports one event. -/
def report (e : Event) : Logged Unit := ⟨[e], ()⟩

@[simp]
theorem value_pure (a : α) : (pure a : Logged α).value = a := rfl

@[simp]
theorem events_pure (a : α) : (pure a : Logged α).events = [] := rfl

@[simp]
theorem value_bind (x : Logged α) (f : α → Logged β) : (x >>= f).value = (f x.value).value := rfl

@[simp]
theorem events_bind (x : Logged α) (f : α → Logged β) :
    (x >>= f).events = x.events ++ (f x.value).events := rfl

@[simp]
theorem events_report (e : Event) : (report e).events = [e] := rfl

end Logged

/-! ## Loggers

The helpers' logger stands below the root logger. `configure` gives it one handler of its own, which
comes after all others, and turns off propagation; whatever the host attached stays. Our handlers are
told from the host's by their name. -/

inductive Level where
  | debug
  | info
  | warning
  | error
  | critical
deriving DecidableEq, Repr

namespace Level

def rank : Level → Nat
  | debug => 10
  | info => 20
  | warning => 30
  | error => 40
  | critical => 50

def name : Level → String
  | debug => "debug"
  | info => "info"
  | warning => "warning"
  | error => "error"
  | critical => "critical"

def ofName? : String → Option Level
  | "debug" => some debug
  | "info" => some info
  | "warning" => some warning
  | "error" => some error
  | "critical" => some critical
  | _ => none

end Level

/-- A message on its way to the handlers. -/
structure Record where
  level : Level
  logger : String
  message : String
deriving DecidableEq, Repr

/-- The helpers report at the lowest level. -/
def Event.record (e : Event) : Record := ⟨.debug, e.logger, e.message⟩

namespace Log

/-- How a handler of our own writes a record. -/
inductive Style where
  | console
  | json
deriving DecidableEq, Repr

inductive Handler where
  /-- A handler that the host made; what it writes is not ours to say. The number tells handlers of one
  name apart. A handler without a name has the empty one. -/
  | host (number : Nat) (name : String)
  | own (style : Style)
deriving DecidableEq, Repr

structure Logger where
  level : Option Level
  propagate : Bool
  handlers : List Handler
deriving DecidableEq, Repr

/-- The helpers' logger and the root logger. -/
structure State where
  logger : Logger
  root : Logger
deriving DecidableEq, Repr

def ownName : String := "roids.structlog"

namespace Handler

def name : Handler → String
  | host _ name => name
  | own _ => ownName

/-- The handler goes by our name. -/
def isOwn (h : Handler) : Bool := h.name == ownName

/-- A number for a handler that is none of `hs`. -/
def unusedNumber (hs : List Handler) : Nat :=
  hs.foldl (fun n h =>
    match h with
    | host number _ => max n (number + 1)
    | own _ => n) 0

end Handler

namespace Logger

/-- Attaches a handler after all others, unless it is attached already. -/
def attach (h : Handler) (l : Logger) : Logger :=
  if h ∈ l.handlers then l else { l with handlers := l.handlers ++ [h] }

/-- Detaches a handler, if it is attached. -/
def detach (h : Handler) (l : Logger) : Logger := { l with handlers := l.handlers.erase h }

/-- Detaches the handlers that go by our name, one after another. -/
def detachOwn (l : Logger) : Logger :=
  l.handlers.foldl (fun l h => if h.isOwn then l.detach h else l) l

end Logger

/-- Spaces after `s` up to `width` characters. -/
def padRight (width : Nat) (s : String) : String :=
  s ++ String.ofList (List.replicate (width - s.length) ' ')

/-- What stands for the time of a record. -/
def timeMark : String := "<TIME>"

/-- The line a record is written as. -/
def Style.line (style : Style) (r : Record) : String :=
  match style with
  | console =>
    timeMark ++ " [" ++ padRight 9 r.level.name ++ "] " ++ padRight 30 r.message ++ " ["
      ++ r.logger ++ "]\n"
  | json =>
    "\x7b\"event\": " ++ Text.asciiJson r.message ++ ", \"level\": " ++ Text.asciiJson r.level.name
      ++ ", \"logger\": " ++ Text.asciiJson r.logger ++ ", \"timestamp\": "
      ++ Text.asciiJson timeMark ++ "\x7d\n"

namespace State

/-- Nothing attached: records below warnings are dropped. -/
def initial : State where
  logger := ⟨none, true, []⟩
  root := ⟨some .warning, true, []⟩

/-- Attaches a handler of our own in place of earlier ones, after all others. -/
def configure (verbose json : Bool) (s : State) : State :=
  let style := if json then Style.json else Style.console
  let logger := s.logger.detachOwn.attach (.own style)
  { s with logger := {
      logger with
      level := some (if verbose then .debug else .warning)
      propagate := false } }

/-- The host attaches a new handler. -/
def addHost (name : String) (s : State) : State :=
  let h := Handler.host (Handler.unusedNumber s.logger.handlers) name
  { s with logger := s.logger.attach h }

/-- The level below which records are dropped; the logger's own comes first. -/
def threshold (s : State) : Nat :=
  match s.logger.level, s.root.level with
  | some level, _ => level.rank
  | none, some level => level.rank
  | none, none => 0

/-- The handlers that a record reaches. -/
def reached (s : State) : List Handler :=
  s.logger.handlers ++ if s.logger.propagate then s.root.handlers else []

/-- What is written for a record. Where it reaches no handler at all, the bare message of a warning
or worse is written. -/
def write (s : State) (r : Record) : String :=
  if r.level.rank < s.threshold then ""
  else if s.reached.isEmpty then
    if r.level.rank < Level.warning.rank then "" else r.message ++ "\n"
  else
    String.join <| s.reached.map fun
      | .own style => style.line r
      | .host .. => ""

/-- What is written for records in turn. -/
def writeAll (s : State) (rs : List Record) : String := String.join (rs.map s.write)

end State

end Log

end DeriveKit
