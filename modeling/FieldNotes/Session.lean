import FieldNotes.Dispatcher.Builtin
import FieldNotes.Dispatcher.Walk

/-! # Sessions

A session keeps a dispatcher, named values, and counts of what handlers reported.  Its steps work on
these one after another; a fault ends a step, and what was done before it stays.
-/

namespace FieldNotes

/-- How often a handler was asked to read, and how often it was run. -/
structure Tally where
  parses : Nat := 0
  runs : Nat := 0
  deriving DecidableEq, Repr

/-- What a session keeps. -/
structure Session where
  schema : Schema
  dispatcher : Dispatcher
  values : List (String × Value) := []
  tallies : List (String × Tally) := []

namespace Session

/-- How many records deep a walk may go. -/
def depthLimit : Nat := 1000

def value? (s : Session) (name : String) : Option Value :=
  s.values.lookup name

def setValue (s : Session) (name : String) (v : Value) : Session :=
  { s with values := (name, v) :: s.values.filter (·.1 != name) }

/-- The value at a place in a named value. -/
def place? (s : Session) (name : String) (path : Path) : Option Value :=
  (s.value? name).bind (·.get? path)

/-- Writes the value at a place. -/
def setPlace (s : Session) (name : String) (path : Path) (v : Value) : Session :=
  match (s.value? name).bind (·.set? path v) with
  | some root => s.setValue name root
  | none => s

/-- Changes the count of a handler. -/
def tally (s : Session) (id : String) (f : Tally → Tally) : Session :=
  let t := f ((s.tallies.lookup id).getD {})
  { s with tallies := (id, t) :: s.tallies.filter (·.1 != id) }

/-- Counts a report. -/
def count (s : Session) : Report → Session
  | .parsed id => s.tally id fun t => { t with parses := t.parses + 1 }
  | .ran id => s.tally id fun t => { t with runs := t.runs + 1 }
  | _ => s

/-- Binds a handler. -/
def register (s : Session) (name : String) (h : Handler) :
    Except Fault Bool × Session × List Event :=
  match s.dispatcher.register name h with
  | .ok (d, events) => (.ok (d.contains name), { s with dispatcher := d }, events)
  | .error f => (.error f, s, [])

/-- Unbinds a name, and tells whether it was bound. -/
def unregister (s : Session) (name : String) : Bool × Session × List Event :=
  let (d, events) := s.dispatcher.unregister name
  (s.dispatcher.contains name, { s with dispatcher := d }, events)

/-- Sets the name tag. -/
def setNameTag (s : Session) (tag : Option String) : Except Fault (Option String) × Session :=
  match s.dispatcher.setNameTag tag with
  | .ok d => (.ok d.nameTag, { s with dispatcher := d })
  | .error f => (.error f, s)

/-- Lets the handler of a name read a text. -/
def parse (s : Session) (name text : String) : Option (Except HandlerError Arg) × Session :=
  match s.dispatcher.handler? name with
  | none => (none, s)
  | some h =>
    let reading := h.parse text
    (some reading.result, reading.reports.foldl count s)

/-- Walks a value, and keeps what the walk remembered and reported. -/
def walkValue (s : Session) (context : Context) (v : Value) : Walked × Session :=
  let walked := s.dispatcher.walk s.schema context depthLimit v
  let s := { s with dispatcher := { s.dispatcher with memo := walked.memo } }
  (walked, (reports walked.events).foldl count s)

/-- Walks a named value; gives also the value afterwards. -/
def walk (s : Session) (context : Context) (name : String) : Option (Walked × Session × Value) :=
  (s.value? name).map fun v =>
    let (walked, s) := s.walkValue context v
    (walked, s.setValue name walked.value, walked.value)

/-- Walks a value over and over, and counts the walks that came to a good end. -/
def walkTimes (s : Session) : Nat → Value → Nat × Session × List Event
  | 0, _ => (0, s, [])
  | n + 1, v =>
    let (walked, s) := s.walkValue .unit v
    let (good, s, events) := walkTimes s n walked.value
    (match walked.result with | .ok () => good + 1 | .error _ => good, s, walked.events ++ events)

/-- Walks several equal values one after another, each over and over. -/
def walkAll (s : Session) (times : Nat) : Nat → Value → Nat × Session × List Event
  | 0, _ => (0, s, [])
  | n + 1, v =>
    let (good, s, events) := s.walkTimes times v
    let (more, s, later) := walkAll s times n v
    (good + more, s, events ++ later)

end Session

end FieldNotes
