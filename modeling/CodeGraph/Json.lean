/-!
# JSON values

The values that a description of a graph is made of, how their parts are looked up, and the one
way they are laid out: two blanks for each level, one item or member to a line, members in the
order given.
-/

set_option autoImplicit false

namespace CodeGraph

/-- A JSON value. -/
inductive Json
  | null
  | bool (b : Bool)
  | number (n : Nat)
  | text (s : String)
  | list (items : List Json)
  | object (members : List (String × Json))
deriving Inhabited

namespace Json

/-- The member of an object under a name; members that are null count as missing. -/
def member? (name : String) : Json → Option Json
  | .object members =>
    match (members.find? fun m => m.1 == name).map Prod.snd with
    | some .null => none
    | found => found
  | _ => none

/-- A number that fits into 32 bits. -/
def word? : Json → Option UInt32
  | .number n => if n < UInt32.size then some (UInt32.ofNat n) else none
  | _ => none

def bool? : Json → Option Bool
  | .bool b => some b
  | _ => none

/-- A digit of a number in base sixteen, in lower case. -/
def hexDigit (n : Nat) : Char :=
  if n < 10 then Char.ofNat (n + 48) else Char.ofNat (n + 87)

/-- How a character stands in a quoted text: quotes, backslashes and controls are escaped. -/
def escape (c : Char) : List Char :=
  if c = '"' then ['\\', '"']
  else if c = '\\' then ['\\', '\\']
  else if c = '\n' then ['\\', 'n']
  else if c = '\r' then ['\\', 'r']
  else if c = '\t' then ['\\', 't']
  else if c.toNat = 8 then ['\\', 'b']
  else if c.toNat = 12 then ['\\', 'f']
  else if c.toNat < 32 then
    ['\\', 'u', '0', '0', hexDigit (c.toNat / 16), hexDigit (c.toNat % 16)]
  else [c]

def quote (s : String) : String :=
  "\"" ++ String.ofList (s.toList.flatMap escape) ++ "\""

/-- The blanks at the start of a line. -/
def margin (level : Nat) : String :=
  String.ofList (List.replicate (2 * level) ' ')

/-- Pieces between brackets, each on a line of its own; nothing stands between the brackets if there
are no pieces. -/
def enclose (opening closing : String) (level : Nat) (pieces : List String) : String :=
  if pieces.isEmpty then opening ++ closing
  else
    opening ++ "\n" ++ ",\n".intercalate (pieces.map fun p => margin (level + 1) ++ p) ++ "\n" ++
      margin level ++ closing

mutual

/-- A value laid out at a level. -/
def renderAt (level : Nat) : Json → String
  | .null => "null"
  | .bool b => if b then "true" else "false"
  | .number n => toString n
  | .text s => quote s
  | .list items => enclose "[" "]" level (renderItems (level + 1) items)
  | .object members => enclose "\x7b" "\x7d" level (renderMembers (level + 1) members)

/-- The items of a list, each laid out at a level. -/
def renderItems (level : Nat) : List Json → List String
  | [] => []
  | item :: items => renderAt level item :: renderItems level items

/-- The members of an object, each laid out at a level. -/
def renderMembers (level : Nat) : List (String × Json) → List String
  | [] => []
  | (name, value) :: members =>
    (quote name ++ ": " ++ renderAt level value) :: renderMembers level members

end

/-- A value laid out over several lines. -/
def render (value : Json) : String :=
  value.renderAt 0

end Json

end CodeGraph
