import Citator.Json.Number

/-!
# `Citator.Json.Structure` — values of a known shape

Readers for the shapes that occur: texts, booleans, sizes, lists, names out of a few, and records. A
record is an object, or a list that gives its fields in their order. A value of the wrong shape is
read far enough to say what it is, since the message names it.

Nesting is limited. The readers for lists and records take what reads their insides as an option:
`none` stands for the level that is not allowed any more.
-/

namespace Citator.Json.Reading

/-! ## 1. Values of the wrong shape -/

/-- The value that comes next and is not what was expected. Of a list or an object only the bracket
is looked at. -/
def found : Reading Found := do
  match ← peek with
  | none => failAtNext .expectedValue
  | some b =>
    if b = 0x6E then
      skip
      word [0x75, 0x6C, 0x6C]
      return .null
    else if b = 0x74 then
      skip
      word [0x72, 0x75, 0x65]
      return .boolean true
    else if b = 0x66 then
      skip
      word [0x61, 0x6C, 0x73, 0x65]
      return .boolean false
    else if b = 0x2D then
      skip
      number true
    else if isDigit b then number false
    else if b = 0x22 then
      skip
      return .text (← string)
    else if b = 0x5B then return .sequence
    else if b = 0x7B then return .map
    else failAtNext .expectedValue

/-- Fails because the value that comes next is not what was expected. -/
def wrongType {α : Type} (expected : Expected) : Reading α := do
  let f ← found
  failHere (.invalidType f expected)

/-- Looks for the next value; there has to be one. -/
def valueStart : Reading UInt8 := do
  match ← peekPastSpace with
  | none => failAtNext .endInValue
  | some b => return b

/-! ## 2. Simple values -/

/-- A text; the argument says what it is meant to be. -/
def text (expected : Expected) : Reading String := do
  if (← valueStart) = 0x22 then
    skip
    string
  else wrongType expected

def boolean : Reading Bool := do
  let b ← valueStart
  if b = 0x74 then
    skip
    word [0x72, 0x75, 0x65]
    return true
  else if b = 0x66 then
    skip
    word [0x61, 0x6C, 0x73, 0x65]
    return false
  else wrongType .boolean

def size : Reading Nat := do
  let b ← valueStart
  let read (negative : Bool) : Reading Nat := do
    match ← number negative with
    | .integer n => if n < 0 then failHere (.negative n) else return n.toNat
    | f => failHere (.invalidType f .size)
  if b = 0x2D then
    skip
    read true
  else if isDigit b then read false
  else wrongType .size

def null : Reading Unit := do
  if (← valueStart) = 0x6E then
    skip
    word [0x75, 0x6C, 0x6C]
  else wrongType .unit

def nullable {α : Type} (r : Reading α) : Reading (Option α) := do
  match ← peekPastSpace with
  | some b =>
    if b = 0x6E then
      skip
      word [0x75, 0x6C, 0x6C]
      return none
    else return some (← r)
  | none => return some (← r)

/-! ## 3. Lists -/

def hasElement (first : Bool) : Reading Bool := do
  match ← peekPastSpace with
  | none => failAtNext .endInList
  | some b =>
    if b = 0x5D then return false
    else if first then return true
    else if b = 0x2C then
      skip
      match ← peekPastSpace with
      | none => failAtNext .endInValue
      | some b => if b = 0x5D then failAtNext .trailingComma else return true
    else failAtNext .expectedListCommaOrEnd

def elements {α : Type} (item : Reading α) : Nat → Bool → Reading (List α)
  | 0, _ => failHere .endInList
  | fuel + 1, first => do
    if ← hasElement first then
      let a ← item
      return a :: (← elements item fuel false)
    else return []

def listEnd : Reading Unit := do
  match ← peekPastSpace with
  | none => failAtNext .endInList
  | some b =>
    if b = 0x5D then skip
    else if b = 0x2C then
      skip
      match ← peekPastSpace with
      | some c => if c = 0x5D then failAtNext .trailingComma else failAtNext .trailingCharacters
      | none => failAtNext .trailingCharacters
    else failAtNext .trailingCharacters

/-- What stands inside brackets of either kind, if another level is allowed. -/
def enclosed {α : Type} (inside : Option (Reading α)) (close : Reading Unit) : Reading α :=
  match inside with
  | none => failAtNext .recursionLimit
  | some body => placed (closedBy (do skip; body) close)

def list {α : Type} (item : Option (Reading α)) : Reading (List α) := do
  if (← valueStart) = 0x5B then
    enclosed (item.map fun r => bounded fun n => elements r n true) listEnd
  else wrongType .sequence

/-! ## 4. Objects -/

/-- Whether another member of an object follows. -/
def hasMember (first : Bool) : Reading Bool := do
  match ← peekPastSpace with
  | none => failAtNext .endInObject
  | some b =>
    if b = 0x7D then return false
    else if first then
      if b = 0x22 then return true else failAtNext .keyMustBeText
    else if b = 0x2C then
      skip
      match ← peekPastSpace with
      | none => failAtNext .endInValue
      | some b =>
        if b = 0x22 then return true
        else if b = 0x7D then failAtNext .trailingComma
        else failAtNext .keyMustBeText
    else failAtNext .expectedObjectCommaOrEnd

def colon : Reading Unit := do
  match ← peekPastSpace with
  | none => failAtNext .endInObject
  | some b => if b = 0x3A then skip else failAtNext .expectedColon

/-- The members of an object. `member` gets what was read so far and the key, and reads the rest of
the member from the colon on. -/
def members {σ : Type} (member : σ → String → Reading σ) : Nat → Bool → σ → Reading σ
  | 0, _, _ => failHere .endInObject
  | fuel + 1, first, soFar => do
    if ← hasMember first then
      skip
      let key ← string
      let soFar ← member soFar key
      members member fuel false soFar
    else return soFar

def objectEnd : Reading Unit := do
  match ← peekPastSpace with
  | none => failAtNext .endInObject
  | some b =>
    if b = 0x7D then skip
    else if b = 0x2C then failAtNext .trailingComma
    else failAtNext .trailingCharacters

/-- A record: its fields in order between square brackets, or by name between braces. -/
def record {α : Type} (name : String) (inOrder byName : Option (Reading α)) : Reading α := do
  let b ← valueStart
  if b = 0x5B then enclosed inOrder listEnd
  else if b = 0x7B then enclosed byName objectEnd
  else wrongType (.record name)

/-- The next field of a record given in order, or nothing if the list ends. -/
def fieldInOrder {α : Type} (first : Bool) (r : Reading α) : Reading (Option α) := do
  if ← hasElement first then return some (← r) else return none

/-- The value of a named field that was not given before. -/
def fieldByName {α : Type} (name : String) (before : Option α) (r : Reading α) : Reading α := do
  if before.isSome then fail (.duplicateField name)
  else
    colon
    r

/-! ## 5. One name out of a few -/

/-- A name that stands for a value, from its opening quote on. -/
def variantName {α : Type} (known : List (String × α)) : Reading α := do
  skip
  let name ← string
  match known.lookup name with
  | some a => return a
  | none => fail (.unknownVariant name (known.map (·.1)))

/-- One of a few names, alone or as the key of an object whose value is `null`. -/
def variant {α : Type} (known : List (String × α)) : Reading α := do
  match ← peekPastSpace with
  | none => failAtNext .endInValue
  | some b =>
    if b = 0x22 then placed (variantName known)
    else if b = 0x7B then
      skip
      if !(← hasMember true) then failAtNext .expectedValue
      let a ← variantName known
      colon
      null
      match ← peekPastSpace with
      | none => failHere .endInObject
      | some b =>
        if b = 0x7D then
          skip
          return a
        else failHere .expectedValue
    else failAtNext .expectedValue

/-! ## 6. Values nobody asks about -/

mutual

/-- Passes over a value of any shape and any depth. -/
def skipValue : Nat → Reading Unit
  | 0 => failHere .endInValue
  | fuel + 1 => do
    let b ← valueStart
    if b = 0x6E then
      skip
      word [0x75, 0x6C, 0x6C]
    else if b = 0x74 then
      skip
      word [0x72, 0x75, 0x65]
    else if b = 0x66 then
      skip
      word [0x61, 0x6C, 0x73, 0x65]
    else if b = 0x2D then
      skip
      skipNumber
    else if isDigit b then skipNumber
    else if b = 0x22 then
      skip
      bounded skipString
    else if b = 0x5B then
      skip
      match ← peekPastSpace with
      | none => failAtNext .endInList
      | some b => if b = 0x5D then skip else skipElements fuel
    else if b = 0x7B then
      skip
      match ← peekPastSpace with
      | none => failAtNext .endInObject
      | some b => if b = 0x7D then skip else skipMembers fuel
    else failAtNext .expectedValue

/-- Passes over the elements of a list that is not empty, and its end. -/
def skipElements : Nat → Reading Unit
  | 0 => failHere .endInValue
  | fuel + 1 => do
    skipValue fuel
    match ← peekPastSpace with
    | none => failAtNext .endInList
    | some b =>
      if b = 0x5D then skip
      else if b = 0x2C then
        skip
        skipElements fuel
      else failAtNext .expectedListCommaOrEnd

/-- Passes over the members of an object that is not empty, and its end. -/
def skipMembers : Nat → Reading Unit
  | 0 => failHere .endInValue
  | fuel + 1 => do
    match ← peekPastSpace with
    | none => failAtNext .endInObject
    | some b =>
      if b = 0x22 then
        skip
        bounded skipString
        colon
        skipValue fuel
        match ← peekPastSpace with
        | none => failAtNext .endInObject
        | some b =>
          if b = 0x7D then skip
          else if b = 0x2C then
            skip
            skipMembers fuel
          else failAtNext .expectedObjectCommaOrEnd
      else failAtNext .keyMustBeText

end

/-! ## 7. Whole texts -/

/-- Reads a text that holds one value and nothing after it but white space. -/
def run {α : Type} (r : Reading α) (bytes : Bytes) : Except JsonError α :=
  let whole : Reading α := placed do
    let a ← r
    match ← peekPastSpace with
    | none => return a
    | some _ => failAtNext .trailingCharacters
  match (whole { rest := bytes }).1 with
  | .ok a => .ok a
  | .error e =>
    let place := e.place.getD (0, 0)
    .error ⟨e.problem, place.1, place.2⟩

end Citator.Json.Reading
