import FieldNotes.Event

/-! # Dispatchers

A dispatcher binds handlers to names.  It remembers what a handler made of the text of a tag, by the
name and the text as written, until the name is bound anew or unbound.  It may have a name tag, by
which fields are called in errors.

* `Dispatcher.register`, `Dispatcher.unregister` change one binding and forget what was remembered
  under its name.
* `Dispatcher.find?_bind`, `Dispatcher.find?_unbind`: the bindings after a change.
-/

namespace FieldNotes

/-- A filter on the keys hides those that it rejects and shows the others as they were. -/
theorem lookup_filter {α β : Type} [BEq α] [LawfulBEq α] (l : List (α × β)) (keep : α → Bool)
    (k : α) : (l.filter fun e => keep e.1).lookup k = if keep k then l.lookup k else none := by
  induction l with
  | nil => simp
  | cons e l ih =>
    rcases e with ⟨a, b⟩
    by_cases hk : k == a
    · have ha : k = a := eq_of_beq hk
      subst ha
      cases hkeep : keep k <;> simp [hkeep, ih]
    · cases hkeep : keep a <;> simp [List.lookup_cons, hkeep, hk, ih]

/-- Parsed arguments, by the name and the quoted text of their tag. -/
abbrev Memo := List ((String × String) × Arg)

namespace Memo

/-- The argument remembered for a tag. -/
def find? (m : Memo) (t : Tag) : Option Arg :=
  m.lookup (t.name, t.quoted)

/-- Remembers the argument of a tag. -/
def insert (m : Memo) (t : Tag) (arg : Arg) : Memo :=
  ((t.name, t.quoted), arg) :: m

/-- Forgets all arguments of a name. -/
def forget (m : Memo) (name : String) : Memo :=
  m.filter (·.1.1 != name)

end Memo

/-- What comes of asking for the argument of a tag. -/
structure Asked where
  result : Except Fault Arg
  /-- What is remembered afterwards. -/
  memo : Memo
  events : List Event

/-- Lets a handler read the text of a tag: the argument, and what is told of it.  A text that cannot
be unquoted, or that the handler does not accept, is a fault. -/
def Handler.readTag (h : Handler) (t : Tag) : Except Fault Arg × List Event :=
  match t.text with
  | .error e => (.error (.brokenTag t.name e), [])
  | .ok text =>
    let reading := h.parse text
    match reading.result with
    | .error e => (.error (.brokenArgument t.name text e), reading.reports.map .reported)
    | .ok arg => (.ok arg, reading.reports.map .reported ++ [.parsed t text])

/-- The argument of a tag: the one that is remembered, or else what the handler reads, which is
remembered from then on. -/
def Memo.ask (m : Memo) (h : Handler) (t : Tag) : Asked :=
  match m.find? t with
  | some arg => ⟨.ok arg, m, []⟩
  | none =>
    match h.readTag t with
    | (.ok arg, events) => ⟨.ok arg, m.insert t arg, events⟩
    | (.error f, events) => ⟨.error f, m, events⟩

/-- The name of a field under a name tag.  A field without a usable value under it, one that is
neither empty nor `-`, goes by its declared name. -/
def Field.shownBy (f : Field) (nameTag : Option String) : String :=
  match nameTag.bind (Tag.find? f.row) with
  | none => f.name
  | some text =>
    let name := (Tag.splitArg text).1
    if name = "" ∨ name = "-" then f.name else name

/-- Handlers bound to names, with what is remembered of their arguments. -/
structure Dispatcher where
  bindings : List (String × Handler) := []
  memo : Memo := []
  nameTag : Option String := none

namespace Dispatcher

/-- The dispatcher without any handler. -/
def empty : Dispatcher := {}

/-- The handler bound to a name. -/
def handler? (d : Dispatcher) (name : String) : Option Handler :=
  d.bindings.lookup name

/-- Whether a handler is bound to a name. -/
def contains (d : Dispatcher) (name : String) : Bool :=
  (d.handler? name).isSome

/-- The bound names, in ascending order. -/
def names (d : Dispatcher) : List String :=
  (d.bindings.map (·.1)).mergeSort fun a b => decide (a ≤ b)

/-- The number of remembered arguments. -/
def remembered (d : Dispatcher) : Nat :=
  d.memo.length

/-- Binds without a check of the name. -/
def bind (d : Dispatcher) (name : String) (h : Handler) : Dispatcher :=
  { d with
    bindings := (name, h) :: d.bindings.filter (·.1 != name)
    memo := d.memo.forget name }

/-- Unbinds a name. -/
def unbind (d : Dispatcher) (name : String) : Dispatcher :=
  { d with
    bindings := d.bindings.filter (·.1 != name)
    memo := d.memo.forget name }

/-- What is told of a binding. -/
def bindEvents (d : Dispatcher) (name : String) : List Event :=
  (if name = stopName then [.reserved] else []) ++ [.registered name] ++
    (if d.contains name then [.replaced name] else [])

/-- Binds a handler to a name in place of any other; an empty name is a fault. -/
def register (d : Dispatcher) (name : String) (h : Handler) :
    Except Fault (Dispatcher × List Event) := do
  requireName .register name
  return (d.bind name h, d.bindEvents name)

/-- Removes the handler bound to a name, if there is one. -/
def unregister (d : Dispatcher) (name : String) : Dispatcher × List Event :=
  if d.contains name then (d.unbind name, [.unregistered name]) else (d, [])

/-- Calls fields in errors by their value under a tag, or by their declared name alone; an empty
tag is a fault. -/
def setNameTag (d : Dispatcher) (tag : Option String) : Except Fault Dispatcher := do
  match tag with
  | some name => requireName .nameTag name
  | none => pure ()
  return { d with nameTag := tag }

/-- The name of a field in errors. -/
def shownName (d : Dispatcher) (f : Field) : String :=
  f.shownBy d.nameTag

/-- How a dispatcher is written in diagnostics. -/
def debug (d : Dispatcher) : String :=
  Text.braced "Reflector"
    [("handlers", Text.bracketed Text.literal d.names),
     ("cached_args", toString d.remembered),
     ("name_tag", Text.optionally Text.literal d.nameTag)]

theorem lookup_filter_ne (bs : List (String × Handler)) (name n : String) :
    (bs.filter (·.1 != name)).lookup n = if n = name then none else bs.lookup n := by
  rw [lookup_filter bs (· != name) n]
  by_cases hn : n = name <;> simp [hn]

theorem find?_bind (d : Dispatcher) (name n : String) (h : Handler) :
    (d.bind name h).handler? n = if n = name then some h else d.handler? n := by
  by_cases hn : n = name
  · simp [bind, handler?, hn]
  · have : (n == name) = false := by simp [hn]
    simp [bind, handler?, List.lookup_cons, hn, this, lookup_filter_ne]

theorem find?_unbind (d : Dispatcher) (name n : String) :
    (d.unbind name).handler? n = if n = name then none else d.handler? n := by
  simp [unbind, handler?, lookup_filter_ne]

end Dispatcher

end FieldNotes
