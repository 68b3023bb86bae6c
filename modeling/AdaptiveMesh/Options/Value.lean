/-
The values of a settings document.

A document is made of the usual scalars, lists and objects.  Readers take a value
and give back what it means, or nothing if it does not mean anything they accept.

A record can be written as an object, which names its fields, or as a list, which
gives them in order and may leave out the last ones.  `fields?` turns both into the
same thing, a list of named values, so a reader of a record never has to know which
of the two it reads.
-/

namespace AdaptiveMesh

/-- A value of a settings document. -/
inductive Value where
  | null
  | bool (b : Bool)
  | integer (n : Int)
  /-- A number with a fraction, which no setting takes. -/
  | fraction
  | text (s : String)
  | list (values : List Value)
  | object (entries : List (String × Value))
deriving Inhabited

namespace Value

variable {α : Type}

/-! ### Scalars and lists -/

/-- A truth value. -/
def bool? : Value → Option Bool
  | bool b => some b
  | _ => none

/-- A whole number of at most eight bits. -/
def uint8? : Value → Option UInt8
  | integer (.ofNat n) => if n < UInt8.size then some (UInt8.ofNat n) else none
  | _ => none

/-- A whole number of at most 64 bits. -/
def uint64? : Value → Option UInt64
  | integer (.ofNat n) => if n < UInt64.size then some (UInt64.ofNat n) else none
  | _ => none

/-- A list of whatever `read` accepts. -/
def listOf? (read : Value → Option α) : Value → Option (List α)
  | list values => values.mapM read
  | _ => none

/-- Either `null`, which stands for nothing, or whatever `read` accepts. -/
def orNull? (read : Value → Option α) : Value → Option (Option α)
  | null => some none
  | v => (read v).map some

/-! ### Names -/

/-- Only `null` holds nothing. -/
def isNull : Value → Bool
  | null => true
  | _ => false

/-- Inside a tagged record an object without entries holds nothing either. -/
def isVoid : Value → Bool
  | null | object [] => true
  | _ => false

/-- A name: a text, or an object whose only entry has that name and holds nothing. -/
def name? (holdsNothing : Value → Bool) : Value → Option String
  | text s => some s
  | object [(s, v)] => if holdsNothing v then some s else none
  | _ => none

/-! ### Records -/

/-- The fields of a record with the given names.  An object must not have others. -/
def fields? (names : List String) : Value → Option (List (String × Value))
  | object entries => if ∀ entry ∈ entries, entry.1 ∈ names then some entries else none
  | list values => if values.length ≤ names.length then some (names.zip values) else none
  | _ => none

/-- A field that has to be there. -/
def required (fields : List (String × Value)) (name : String) (read : Value → Option α) :
    Option α :=
  (fields.lookup name).bind read

/-- A field that may be missing, which stands for a default. -/
def withDefault (fields : List (String × Value)) (name : String) (default : α)
    (read : Value → Option α) : Option α :=
  match fields.lookup name with
  | none => some default
  | some v => read v

/-- The tag of a tagged record, and the rest of the record.  In an object the tag stands under a
name of its own, in a list it comes first. -/
def tagged? (tag : String) : Value → Option (String × Value)
  | object entries =>
    match entries.lookup tag with
    | some (text kind) => some (kind, object (entries.filter fun entry => entry.1 ≠ tag))
    | _ => none
  | list (text kind :: values) => some (kind, list values)
  | _ => none

end Value

end AdaptiveMesh
