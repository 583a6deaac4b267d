import FieldNotes.Derive.Item

/-! # Lists of entries

The usual way to read lists: an entry is a path of identifiers, commas stand between entries, and a
comma may stand behind the last one.

* `listing` reads a list, and `listing_eq` says how, entry by entry.
* `ListReader.standard` is the reader of lists whose entries are joined by commas.
-/

namespace FieldNotes.Derive

/-- Why a list of entries cannot be read on. -/
inductive ListError
  /-- The list ends where an entry is due. -/
  | missing
  | literal
  | token
  | identifier
  /-- The list ends where an identifier is due. -/
  | cutShort
  | comma
  deriving DecidableEq, Repr

def ListError.message : ListError → String
  | .missing => "unexpected end of input, expected nested attribute"
  | .literal => "unexpected literal in nested attribute, expected ident"
  | .token => "unexpected token in nested attribute, expected ident"
  | .identifier => "expected ident"
  | .cutShort => "unexpected end of input, expected ident"
  | .comma => "expected `,`"

/-! ## Entries -/

/-- The rest of a path after an identifier: whether it has more identifiers, and what follows. -/
def restOfPath : (fuel : Nat) → List Char → Except ListError (Bool × List Char)
  | 0, cs => .ok (false, cs)
  | fuel + 1, cs =>
    match skipGap cs with
    | ':' :: ':' :: rest =>
      let rest := skipGap rest
      match identifier? rest with
      | some (_, rest) => (restOfPath fuel rest).map fun r => (true, r.2)
      | none => .error (if rest.isEmpty then .cutShort else .identifier)
    | rest => .ok (false, rest)

/-- The path that a text begins with, if it is a single identifier, and the rest of the text. -/
def entry (cs : List Char) : Except ListError (Option (List Char) × List Char) :=
  let (rooted, cs) :=
    match skipGap cs with
    | ':' :: ':' :: rest => (true, skipGap rest)
    | rest => (false, rest)
  match identifier? cs with
  | some (name, rest) => do
    let (longer, rest) ← restOfPath (rest.length + 1) rest
    return (if rooted || longer then none else some name, rest)
  | none =>
    .error (if cs.isEmpty then .missing else if beginsLiteral cs then .literal else .token)

/-! ## What is left to be read -/

theorem length_rest_gap (g : Gap) (cs : List Char) : (g.rest cs).length ≤ cs.length := by
  fun_induction Gap.rest g cs <;> simp only [List.length_cons, List.length_nil] <;> omega

theorem length_skipGap_le (cs : List Char) : (skipGap cs).length ≤ cs.length :=
  length_rest_gap .blanks cs

theorem length_rest_of_plainIdentifier? {cs name rest : List Char}
    (h : plainIdentifier? cs = some (name, rest)) : rest.length < cs.length := by
  cases cs with
  | nil => cases h
  | cons c cs =>
    simp only [plainIdentifier?] at h
    split at h
    · cases h
      exact Nat.lt_succ_of_le (List.dropWhile_sublist isIdentifierChar).length_le
    · cases h

theorem length_rest_of_identifier? {cs name rest : List Char}
    (h : identifier? cs = some (name, rest)) : rest.length < cs.length := by
  simp only [identifier?] at h
  split at h
  · cases h
  · split at h
    · obtain ⟨⟨name', rest'⟩, hplain, heq⟩ := Option.map_eq_some_iff.1 h
      cases heq
      have hlt := length_rest_of_plainIdentifier? hplain
      simp only [List.length_cons]
      omega
    · exact length_rest_of_plainIdentifier? h

theorem length_rest_of_restOfPath {fuel : Nat} {cs rest : List Char} {longer : Bool}
    (h : restOfPath fuel cs = .ok (longer, rest)) : rest.length ≤ cs.length := by
  induction fuel generalizing cs rest longer with
  | zero =>
    cases h
    exact Nat.le_refl _
  | succ fuel ih =>
    have hgap := length_skipGap_le cs
    simp only [restOfPath] at h
    split at h
    · rename_i more hmore
      rw [hmore, List.length_cons, List.length_cons] at hgap
      have hgap' := length_skipGap_le more
      split at h
      · rename_i name behind hname
        cases hpath : restOfPath fuel behind with
        | error e => simp [hpath, Except.map] at h
        | ok r =>
          simp only [hpath, Except.map, Except.ok.injEq, Prod.mk.injEq] at h
          obtain ⟨-, rfl⟩ := h
          have hrest := ih hpath
          have hlt := length_rest_of_identifier? hname
          omega
      · cases h
    · cases h
      exact hgap

theorem length_rest_of_entry {cs rest : List Char} {name : Option (List Char)}
    (h : entry cs = .ok (name, rest)) : rest.length < cs.length := by
  simp only [entry] at h
  split at h
  · rename_i word behind hword
    cases hpath : restOfPath (behind.length + 1) behind with
    | error e =>
      rw [hpath] at h
      cases h
    | ok r =>
      rw [hpath] at h
      cases h
      have hgap := length_skipGap_le cs
      have hle := length_rest_of_restOfPath hpath
      have hlt := length_rest_of_identifier? hword
      -- a path may begin with two colons
      split at hlt
      · rename_i start hstart
        have hgap' := length_skipGap_le start
        simp only [hstart, List.length_cons] at hgap hlt
        omega
      · simp only at hlt
        omega
  · cases h

/-! ## Whole lists -/

/-- What a list is read as. -/
def listing (cs : List Char) : Listing :=
  match _hgap : skipGap cs with
  | [] => ⟨[], none⟩
  | c :: more =>
    match _hentry : entry (c :: more) with
    | .error e => ⟨[], some e.message⟩
    | .ok (name, []) => ⟨[name.map String.ofList], none⟩
    | .ok (name, d :: rest) =>
      if d = ',' then
        let l := listing rest
        ⟨name.map String.ofList :: l.names, l.broken⟩
      else ⟨[name.map String.ofList], some ListError.comma.message⟩
  termination_by cs.length
  decreasing_by
    have hle := length_skipGap_le cs
    have hlt := length_rest_of_entry _hentry
    rw [_hgap] at hle
    simp only [List.length_cons] at hle hlt
    omega

/-- What a list is read as, entry by entry. -/
theorem listing_eq (cs : List Char) :
    listing cs = match skipGap cs with
      | [] => ⟨[], none⟩
      | c :: more =>
        match entry (c :: more) with
        | .error e => ⟨[], some e.message⟩
        | .ok (name, []) => ⟨[name.map String.ofList], none⟩
        | .ok (name, d :: rest) =>
          if d = ',' then ⟨name.map String.ofList :: (listing rest).names, (listing rest).broken⟩
          else ⟨[name.map String.ofList], some ListError.comma.message⟩ := by
  rw [listing]
  split
  · rename_i hgap
    rw [hgap]
  · rename_i c more hgap
    rw [hgap]
    simp only
    split <;> rename_i hentry <;> rw [hentry]

theorem listing_nil : listing [] = ⟨[], none⟩ := by
  rw [listing_eq]
  rfl

/-- The reader of lists whose entries are joined by commas. -/
def ListReader.standard : ListReader := fun entries =>
  listing (String.intercalate ", " entries).toList

end FieldNotes.Derive
