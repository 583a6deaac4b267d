import FieldNotes.Text.Quoted
import FieldNotes.Number.Integer

/-! # Errors and faults

A handler that cannot do its work fails with a `HandlerError`, which ends a walk in an orderly way.
A `Fault` is fatal: it stands for a mistake in an annotation or in the use of this library, not for
bad data.  Both are causes; their wording is in `message`.
-/

namespace FieldNotes

open Text

/-- Why a text is no value of a scalar type. -/
inductive ReadError
  | number (e : NumberError)
  | notBool
  deriving DecidableEq, Repr

def ReadError.message : ReadError → String
  | .number e => e.message
  | .notBool => "expected one of 1, t, true, 0, f, false"

/-- Why the `default` handler cannot fill a field. -/
inductive FillError
  /-- The reference names no field at all. -/
  | emptyFieldRef
  /-- A literal means nothing for this type. -/
  | unsupported (type : String)
  /-- The literal is no value of the type. -/
  | unreadable (literal type : String) (reason : ReadError)
  | duration (literal : String)
  | time (literal : String)
  | layout (text : String)
  /-- The argument was not read by the handler itself. -/
  | argument
  deriving DecidableEq, Repr

def FillError.message : FillError → String
  | .emptyFieldRef => "invalid default value: empty field reference"
  | .unsupported type => "unsupported type " ++ type
  | .unreadable literal type reason =>
    "cannot parse '" ++ literal ++ "' as " ++ type ++ ": " ++ reason.message
  | .duration literal => "invalid duration '" ++ literal ++ "'"
  | .time literal => "unable to parse time '" ++ literal ++ "'"
  | .layout l => "invalid time layout '" ++ l ++ "'"
  | .argument => "unexpected argument for the default handler"

/-- Why a handler failed. -/
inductive HandlerError
  | fill (e : FillError)
  | number (e : NumberError)
  /-- The `setfmt` handler was given an argument that is no text. -/
  | formatNotText
  /-- The `validate` handler was given an argument that is no text. -/
  | ruleNotText
  /-- A cause that only the handler itself knows. -/
  | custom (text : String)
  deriving DecidableEq, Repr

def HandlerError.message : HandlerError → String
  | .fill e => e.message
  | .number e => e.message
  | .formatNotText => "setfmt expects a string argument"
  | .ruleNotText => "validate expects a string rule"
  | .custom text => text

/-- The places that insist on a name. -/
inductive NameUse
  | lookup
  | tagOf
  | taggedFields
  | nameTag
  | register
  deriving DecidableEq, Repr

def NameUse.message : NameUse → String
  | .lookup => "tag lookup: the tag name must not be empty"
  | .tagOf => "get_tag: the tag name must not be empty"
  | .taggedFields => "fields_with_tag: the tag must not be empty"
  | .nameTag => "set_name_tag: the tag name must not be empty"
  | .register => "register: the handler name must not be empty"

/-- Why a run cannot go on. -/
inductive Fault
  /-- A name is empty where one is needed. -/
  | emptyName (use : NameUse)
  /-- Fields were asked of a type that is no record. -/
  | notARecord (type : String)
  /-- The text of a tag with a bound name cannot be read. -/
  | brokenTag (name : String) (e : UnquoteError)
  /-- The handler bound to the name does not accept the text. -/
  | brokenArgument (name text : String) (e : HandlerError)
  | noSetter (field type : String)
  | noFormatSetter (field type : String)
  /-- A reference names no field of the root. -/
  | unknownField (name : String)
  | nilField (name : String)
  | notCopyable (name type : String)
  /-- The field that a reference names has another type than the target. -/
  | typeMismatch (target name source : String)
  /-- A valid layout has an item that cannot be printed. -/
  | unprintableLayout
  /-- A rule that the validator does not know. -/
  | unknownRule (rule : String)
  /-- A path leads nowhere. -/
  | strayPath
  deriving DecidableEq, Repr

def Fault.message : Fault → String
  | .emptyName use => use.message
  | .notARecord type => "fields_of_value: " ++ type ++ " is not a struct type"
  | .brokenTag name e => "invalid tag '" ++ name ++ "' value: " ++ e.message
  | .brokenArgument name text e =>
    "invalid tag '" ++ name ++ "' value '" ++ text ++ "': " ++ e.message
  | .noSetter field type => field ++ "(" ++ type ++ ") does not implement Setter"
  | .noFormatSetter field type => field ++ "(" ++ type ++ ") does not implement FormatSetter"
  | .unknownField name => "not found the struct field '" ++ name ++ "'"
  | .nilField name => "the struct field '" ++ name ++ "' is nil"
  | .notCopyable name type => "the struct field '" ++ name ++ "' (" ++ type ++ ") cannot be copied"
  | .typeMismatch target name source =>
    "cannot set " ++ target ++ " from the struct field '" ++ name ++ "' (" ++ source ++ ")"
  | .unprintableLayout => "a Display implementation returned an error unexpectedly: Error"
  | .unknownRule rule => "unknown validate rule '" ++ rule ++ "'"
  | .strayPath => "cursor path resolves from the walk root"

/-- Refuses an empty name. -/
def requireName (use : NameUse) (name : String) : Except Fault Unit :=
  if name.isEmpty then .error (.emptyName use) else .ok ()

end FieldNotes
