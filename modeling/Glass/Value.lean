import Glass.Entries
import Glass.Lexeme.StringLiteral
import Glass.Number.Style

/-!
Values, how they are printed, and when two of them are equal. Numbers compare as doubles do, so that
the zeros are equal and nothing equals a NaN; lists compare item by item, and dictionaries by their
entries, whatever the order of these.
-/

namespace Glass

inductive Value where
  | number (x : Float)
  | string (text : String)
  | boolean (b : Bool)
  | list (items : List Value)
  | dictionary (entries : List (String × Value))
  | void

inductive ValueKind where
  | number | string | boolean | list | dictionary | void
  deriving DecidableEq, Repr

def ValueKind.name : ValueKind → String
  | .number => "number"
  | .string => "string"
  | .boolean => "boolean"
  | .list => "list"
  | .dictionary => "dictionary"
  | .void => "void"

/-- A text as a string literal that stands for it. -/
def quoteText (text : String) : String :=
  "\"" ++ String.ofList (escapeText text.toList) ++ "\""

namespace Value

def kind : Value → ValueKind
  | .number _ => .number
  | .string _ => .string
  | .boolean _ => .boolean
  | .list _ => .list
  | .dictionary _ => .dictionary
  | .void => .void

mutual

/-- The printed form. -/
def render : Value → String
  | .number x => NumberStyle.printed.text x
  | .string text => quoteText text
  | .boolean true => "true"
  | .boolean false => "false"
  | .list items => "[" ++ ", ".intercalate (renderItems items) ++ "]"
  | .dictionary entries => "\x7b" ++ ", ".intercalate (renderEntries entries) ++ "\x7d"
  | .void => "void"

/-- The printed forms of a row of values. -/
def renderItems : List Value → List String
  | [] => []
  | item :: rest => item.render :: renderItems rest

/-- The printed forms of a row of entries. -/
def renderEntries : List (String × Value) → List String
  | [] => []
  | (name, value) :: rest => (quoteText name ++ ": " ++ value.render) :: renderEntries rest

end

mutual

def equal : Value → Value → Bool
  | .number a, .number b => a == b
  | .string a, .string b => a == b
  | .boolean a, .boolean b => a == b
  | .list a, .list b => equalItems a b
  | .dictionary a, .dictionary b => a.length == b.length && equalEntries a b
  | .void, .void => true
  | _, _ => false

/-- Whether two rows have equal items in the same order. -/
def equalItems : List Value → List Value → Bool
  | [], [] => true
  | a :: as, b :: bs => equal a b && equalItems as bs
  | _, _ => false

/-- Whether each of the first entries has an equal one of the same name among the second. -/
def equalEntries : List (String × Value) → List (String × Value) → Bool
  | [], _ => true
  | (name, a) :: rest, others =>
      (match List.lookup name others with
        | some b => equal a b
        | none => false) && equalEntries rest others

end

end Value

end Glass
