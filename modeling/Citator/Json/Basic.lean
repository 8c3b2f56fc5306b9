import Citator.Text.Quoted

/-!
# `Citator.Json.Basic` — JSON values that are written

The values that this library writes: objects keep the order of their members, and numbers are natural
numbers. A value has two texts. The compact one has no white space at all; the indented one puts every
element and member on a line of its own, two blanks further in than what holds it, except that empty
arrays and objects stay closed.
-/

namespace Citator

/-- A JSON value, as far as values are written. -/
inductive Json where
  | bool (b : Bool)
  | number (n : Nat)
  | text (s : String)
  | array (items : List Json)
  | object (members : List (String × Json))
  deriving Repr, Inhabited

namespace Json

/-- A character inside a string: quotes, backslashes and controls are escaped, by a letter if they
have one. -/
def escapedChar (c : Char) : String :=
  if c = '"' then "\\\""
  else if c = '\\' then "\\\\"
  else if c = '\n' then "\\n"
  else if c = '\r' then "\\r"
  else if c = '\t' then "\\t"
  else if c = '\x08' then "\\b"
  else if c = '\x0c' then "\\f"
  else if c.toNat < 0x10 then "\\u000" ++ Text.hexDigits c.toNat
  else if c.toNat < 0x20 then "\\u00" ++ Text.hexDigits c.toNat
  else c.toString

def quoted (s : String) : String := "\"" ++ String.join (s.toList.map escapedChar) ++ "\""

mutual

def compact : Json → String
  | .bool b => if b then "true" else "false"
  | .number n => toString n
  | .text s => quoted s
  | .array items => "[" ++ String.intercalate "," (compactItems items) ++ "]"
  | .object members => "\x7b" ++ String.intercalate "," (compactMembers members) ++ "\x7d"

def compactItems : List Json → List String
  | [] => []
  | v :: vs => v.compact :: compactItems vs

def compactMembers : List (String × Json) → List String
  | [] => []
  | (k, v) :: ms => (quoted k ++ ":" ++ v.compact) :: compactMembers ms

end

/-- The start of a line inside `depth` arrays and objects. -/
def indent (depth : Nat) : String := "\n" ++ String.ofList (List.replicate (2 * depth) ' ')

mutual

/-- The text of a value with one element or member a line. -/
def indented (v : Json) (depth : Nat) : String :=
  match v with
  | .bool b => if b then "true" else "false"
  | .number n => toString n
  | .text s => quoted s
  | .array [] => "[]"
  | .array (v :: vs) =>
    "[" ++ String.intercalate "," (indentedItems (depth + 1) (v :: vs)) ++ indent depth ++ "]"
  | .object [] => "\x7b\x7d"
  | .object (m :: ms) =>
    "\x7b" ++ String.intercalate "," (indentedMembers (depth + 1) (m :: ms)) ++ indent depth ++
      "\x7d"

def indentedItems (depth : Nat) : List Json → List String
  | [] => []
  | v :: vs => (indent depth ++ v.indented depth) :: indentedItems depth vs

def indentedMembers (depth : Nat) : List (String × Json) → List String
  | [] => []
  | (k, v) :: ms =>
    (indent depth ++ quoted k ++ ": " ++ v.indented depth) :: indentedMembers depth ms

end

end Json
end Citator
