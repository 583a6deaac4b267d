import FieldNotes.Dispatcher
import FieldNotes.Handler.Fill

/-! # The bundled handlers

The names under which a dispatcher may come with handlers: `set`, `setfmt` and `default`.
-/

namespace FieldNotes

/-- The dispatcher with the bundled handlers. -/
def Dispatcher.bundled (schema : Schema) (times : Times) : Dispatcher :=
  { bindings :=
      [("set", Handler.set schema), ("setfmt", Handler.setFormat schema),
       ("default", Handler.fill ⟨schema, .standard, times⟩)] }

end FieldNotes
