/-!
# JSON output

The JSON values that reports are made of, and their two written forms: one on a single
line without spaces, and one with every item and field on a line of its own, two spaces
deeper than what holds it. Characters below the space, the quotation mark and the
backslash are escaped; all others stand as they are. Fields keep their order.
-/

namespace Readings.Command

/-- A JSON value. -/
inductive Json where
  | bool (value : Bool)
  | number (value : Nat)
  | string (value : String)
  | array (items : List Json)
  | object (fields : List (String × Json))

namespace Json

/-- One character as it stands in a JSON string. -/
def escape (char : Char) : List Char :=
  if char = '"' then ['\\', '"']
  else if char = '\\' then ['\\', '\\']
  else if char = '\x08' then ['\\', 'b']
  else if char = '\x0c' then ['\\', 'f']
  else if char = '\n' then ['\\', 'n']
  else if char = '\r' then ['\\', 'r']
  else if char = '\t' then ['\\', 't']
  else if char.toNat < 0x20 then
    ['\\', 'u', '0', '0', Nat.digitChar (char.toNat / 16), Nat.digitChar (char.toNat % 16)]
  else [char]

/-- A text as a JSON string. -/
def quote (text : String) : String :=
  String.ofList (['"'] ++ text.toList.flatMap escape ++ ['"'])

mutual

/-- The form on a single line. -/
def compact : Json → String
  | .bool value => toString value
  | .number value => toString value
  | .string value => quote value
  | .array items => "[" ++ ",".intercalate (compactItems items) ++ "]"
  | .object fields => "\x7b" ++ ",".intercalate (compactFields fields) ++ "\x7d"

/-- The items of an array on a single line. -/
def compactItems : List Json → List String
  | [] => []
  | item :: items => item.compact :: compactItems items

/-- The fields of an object on a single line. -/
def compactFields : List (String × Json) → List String
  | [] => []
  | (key, value) :: fields => (quote key ++ ":" ++ value.compact) :: compactFields fields

end

/-- A line break with the spaces that the next line begins with. -/
def newline (indent : Nat) : String :=
  String.ofList ('\n' :: List.replicate indent ' ')

/-- Entries on lines of their own between two brackets. Without entries the brackets stand
together. -/
def block (indent : Nat) (opening closing : String) (entries : List String) : String :=
  if entries.isEmpty then opening ++ closing
  else
    opening ++ newline (indent + 2) ++ ("," ++ newline (indent + 2)).intercalate entries ++
      newline indent ++ closing

mutual

/-- The form on many lines, inside something that is indented already. -/
def prettyAt (indent : Nat) : Json → String
  | .bool value => toString value
  | .number value => toString value
  | .string value => quote value
  | .array items => block indent "[" "]" (prettyItems (indent + 2) items)
  | .object fields => block indent "\x7b" "\x7d" (prettyFields (indent + 2) fields)

/-- The items of an array, each on lines of its own. -/
def prettyItems (indent : Nat) : List Json → List String
  | [] => []
  | item :: items => item.prettyAt indent :: prettyItems indent items

/-- The fields of an object, each on lines of its own. -/
def prettyFields (indent : Nat) : List (String × Json) → List String
  | [] => []
  | (key, value) :: fields =>
    (quote key ++ ": " ++ value.prettyAt indent) :: prettyFields indent fields

end

/-- The form on many lines. -/
def pretty (json : Json) : String :=
  json.prettyAt 0

end Json

end Readings.Command
