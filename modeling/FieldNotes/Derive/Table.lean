import FieldNotes.Derive.Item
import FieldNotes.Schema

/-! # Deriving tables

What is derived from an item, given how lists are read: whether its values are records or sealed
scalars, by which setters they can be assigned, and for records the table of fields.  An attribute
`reflect` on the item chooses among these; attributes `tag` on a field make up its row of tags, or
leave it out.  Attributes with other names belong to others.

The first violation of the rules decides the error: parameters for lifetimes, then the attributes of
the item in order, its kind, and its fields in order.

* `Derive.derive` derives the table of an item.
-/

namespace FieldNotes.Derive

/-- Why nothing can be derived from an item. -/
inductive DeriveError
  | lifetime
  /-- The attribute `reflect` has no arguments. -/
  | noArguments
  /-- The attribute `reflect` has a value in place of a list. -/
  | noParentheses
  | unknownOption
  | notARecord
  /-- A field has the attribute `reflect`. -/
  | misplaced
  | notText
  | unknownTagOption
  /-- The attribute `tag` has no arguments. -/
  | bareTag
  /-- A list cannot be read on; this is said of it. -/
  | list (message : String)
  deriving DecidableEq, Repr

def DeriveError.message : DeriveError → String
  | .lifetime => "Reflect cannot be derived for types with lifetime parameters"
  | .noArguments => "expected attribute arguments in parentheses: #[reflect(...)]"
  | .noParentheses => "expected parentheses: #[reflect(...)]"
  | .unknownOption => "unknown reflect attribute"
  | .notARecord => "Reflect can only be derived for structs"
  | .misplaced => "#[reflect] applies to the container, annotate fields with #[tag]"
  | .notText => "expected a string literal"
  | .unknownTagOption => "unknown tag attribute"
  | .bareTag => "expected #[tag = \"...\"] or #[tag(skip)]"
  | .list message => message

/-- What the attributes of an item choose. -/
structure Options where
  setter : Bool := false
  formatSetter : Bool := false
  /-- Values are scalars, whatever they are made of. -/
  isSealed : Bool := false
  deriving DecidableEq, Repr

/-- Which field of an item is meant: by name, or by position among all fields. -/
inductive Member
  | named (name : String)
  | position (i : Nat)
  deriving DecidableEq, Repr

/-- The name of a member in tables. -/
def Member.name : Member → String
  | .named name => name
  | .position i => toString i

/-- An entry of a table: a member, and what is known of it. -/
structure Entry where
  member : Member
  field : Field
  deriving DecidableEq, Repr

/-- What is derived from an item. -/
inductive Derived
  | record (table : List Entry) (options : Options)
  | scalar (options : Options)
  deriving DecidableEq, Repr

/-- Hands over the entries of a list, in order.  After the first one that is refused there are no
more, and last comes what is wrong where the list cannot be read on. -/
def Listing.handOver (l : Listing) (accept : σ → Option String → Except DeriveError σ) (s : σ) :
    Except DeriveError σ := do
  let s ← l.names.foldlM accept s
  match l.broken with
  | some message => throw (.list message)
  | none => return s

/-- What an entry of the item's attribute chooses. -/
def choose (o : Options) (name : Option String) : Except DeriveError Options :=
  match name with
  | some "setter" => .ok { o with setter := true }
  | some "format_setter" => .ok { o with formatSetter := true }
  | some "opaque" => .ok { o with isSealed := true }
  | _ => .error .unknownOption

/-- What one of the item's attributes chooses. -/
def chooseAll (read : ListReader) (o : Options) (a : Attribute) : Except DeriveError Options :=
  match a.args with
  | .none => .error .noArguments
  | .text _ | .literal => .error .noParentheses
  | .list entries => (read entries).handOver choose o

/-- What the attributes of an item choose. -/
def options (read : ListReader) (attributes : List Attribute) : Except DeriveError Options :=
  (attributes.filter (·.path == "reflect")).foldlM (chooseAll read) {}

/-- The texts of a field's tags so far, and whether the field is left out. -/
structure Tags where
  texts : List String := []
  skip : Bool := false
  deriving DecidableEq, Repr

/-- What an entry of a field's attribute says. -/
def addEntry (t : Tags) (name : Option String) : Except DeriveError Tags :=
  if name = some "skip" then .ok { t with skip := true } else .error .unknownTagOption

/-- What one of a field's attributes says. -/
def addTag (read : ListReader) (t : Tags) (a : Attribute) : Except DeriveError Tags :=
  match a.args with
  | .none => .error .bareTag
  | .text s => .ok { t with texts := t.texts ++ [s] }
  | .literal => .error .notText
  | .list entries => (read entries).handOver addEntry t

/-- What the attributes of a field say. -/
def tagsOf (read : ListReader) (f : ItemField) : Except DeriveError Tags :=
  if f.attributes.any (·.path == "reflect") then .error .misplaced
  else (f.attributes.filter (·.path == "tag")).foldlM (addTag read) {}

/-- The member that a field is. -/
def memberOf (kind : ItemKind) (i : Nat) (f : ItemField) : Member :=
  if kind = .tuple then .position i else .named f.name

/-- The entry of a field, unless it is left out. -/
def entryOf (kind : ItemKind) (i : Nat) (f : ItemField) (t : Tags) : Option Entry :=
  if t.skip then none
  else
    let m := memberOf kind i f
    some ⟨m, ⟨m.name, Text.trim f.visibility == "pub", String.intercalate " " t.texts⟩⟩

/-- The table of the fields of an item; `i` is the position of the first of them. -/
def tableOf (read : ListReader) (kind : ItemKind) (i : Nat) :
    List ItemField → Except DeriveError (List Entry)
  | [] => .ok []
  | f :: fs => do
    let t ← tagsOf read f
    let rest ← tableOf read kind (i + 1) fs
    return (entryOf kind i f t).toList ++ rest

/-- The fields that an item has. -/
def Item.members (item : Item) : List ItemField :=
  match item.kind with
  | .record | .tuple => item.fields
  | .unit | .union | .enum => []

/-- Whether a parameter stands for a lifetime. -/
def isLifetime (parameter : String) : Bool :=
  match skipGap parameter.toList with
  | '\'' :: _ => true
  | _ => false

/-- Derives the table of an item. -/
def derive (read : ListReader) (item : Item) : Except DeriveError Derived := do
  if item.parameters.any isLifetime then throw .lifetime
  let o ← options read item.attributes
  if o.isSealed then return .scalar o
  if item.kind = .enum ∨ item.kind = .union then throw .notARecord
  return .record (← tableOf read item.kind 0 item.members) o

/-- The part of a bracketed text before a character that is not between brackets. -/
def upTo (c : Char) (depth : Nat) : List Char → List Char
  | [] => []
  | '-' :: '>' :: rest => '-' :: '>' :: upTo c depth rest
  | d :: rest =>
    if d = c ∧ depth = 0 then []
    else
      let depth :=
        if d = '<' ∨ d = '(' ∨ d = '[' then depth + 1
        else if d = '>' ∨ d = ')' ∨ d = ']' then depth - 1
        else depth
      d :: upTo c depth rest

/-- A text without any blanks. -/
def withoutBlanks (cs : List Char) : String :=
  String.ofList (cs.filter fun c => !Text.isBlank c)

/-- A parameter as it is written once more: without a default, and with a further bound if it stands
for a type. -/
def boundParameter (bound parameter : String) : String :=
  let cs := skipGap parameter.toList
  let kept := upTo '=' 0 cs
  let text := withoutBlanks kept
  if (identifier? cs).map (·.1) = some "const".toList then text
  else if text.toList.contains ':' then
    if text.endsWith ":" || text.endsWith "+" then text ++ bound else text ++ "+" ++ bound
  else text ++ ":" ++ bound

/-- The parameters and conditions that head what is written for an item, where a type parameter gets
the further bound `bound`. -/
structure Heading where
  parameters : String
  conditions : String
  deriving DecidableEq, Repr

def heading (bound : String) (item : Item) : Heading :=
  let conditions := withoutBlanks item.whereClause.toList
  ⟨String.intercalate "," (item.parameters.map (boundParameter bound)),
   if conditions.isEmpty then "" else "where" ++ conditions⟩

namespace Derived

def options : Derived → Options
  | .record _ o | .scalar o => o

/-- The table; a scalar has an empty one. -/
def table : Derived → List Entry
  | .record t _ => t
  | .scalar _ => []

/-- The capabilities that are written for an item, by their names. -/
def capabilities : Derived → List String
  | .record .. => ["Value", "Struct", "Typed"]
  | .scalar _ => ["Value"]

/-- The methods of the setters that were chosen. -/
def setterMethods (o : Options) : List String :=
  (if o.setter then ["as_setter"] else []) ++ (if o.formatSetter then ["as_format_setter"] else [])

/-- The methods that are written for an item, in order. -/
def methods : Derived → List String
  | .record _ o =>
    ["reflect_ref", "reflect_mut", "is_zero"] ++ setterMethods o ++
      ["info", "field", "field_mut", "type_info"]
  | .scalar o =>
    ["reflect_ref", "reflect_mut", "is_zero", "clone_value", "set_from"] ++ setterMethods o

end Derived

end FieldNotes.Derive
