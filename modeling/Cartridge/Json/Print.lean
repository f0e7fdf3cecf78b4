import Cartridge.Text.Decimal

/-!
# Printing of JSON texts

Texts are indented by two blanks per level, with one element or member on a line; a list or an
object without any stands on one line.

* `bracketed`   a list or an object, from the texts of its elements or members;
* `member`      a key and a value;
* `list`, `object`, `number`, `boolean`   the values.
-/

namespace Cartridge.Json

/-- a line break and the indentation of a level -/
def lineStart (level : Nat) : List Char := '\n' :: List.replicate (2 * level) ' '

/-- items with commas between them, each on a line of its own -/
def itemLines (level : Nat) : List (List Char) → List Char
  | [] => []
  | [item] => lineStart level ++ item
  | item :: rest => lineStart level ++ item ++ ',' :: itemLines level rest

/-- `level` is that of the line on which the bracket opens -/
def bracketed (opening closing : Char) (level : Nat) (items : List (List Char)) : List Char :=
  if items.isEmpty then [opening, closing]
  else opening :: (itemLines (level + 1) items ++ lineStart level ++ [closing])

def list (level : Nat) (elements : List (List Char)) : List Char :=
  bracketed '[' ']' level elements

/-- the key holds no character that would have to be escaped -/
def member (key : String) (value : List Char) : List Char :=
  '"' :: (key.toList ++ '"' :: ':' :: ' ' :: value)

def object (level : Nat) (members : List (List Char)) : List Char :=
  bracketed '{' '}' level members

def number (n : Nat) : List Char := Text.decimal n

def boolean (b : Bool) : List Char := (if b then "true" else "false").toList

end Cartridge.Json
