/-!
# Lines and words

* `lines`     the lines of a text: what stands between its newlines, the last one included even
              if it is empty;
* `isBlank`   white space, by the Unicode property of that name;
* `words`     the longest runs of other characters, in order.
-/

namespace Cartridge.Text

/-! ## lines -/

/-- puts a character before the first line -/
def addToLines (c : Char) : List (List Char) → List (List Char)
  | [] => [[c]]
  | line :: rest => if c = '\n' then [] :: line :: rest else (c :: line) :: rest

def lines (text : List Char) : List (List Char) := text.foldr addToLines [[]]

theorem lines_nil : lines [] = [[]] := rfl
theorem lines_cons (c : Char) (text : List Char) : lines (c :: text) = addToLines c (lines text) := rfl

/-! ## words -/

def isBlank (c : Char) : Bool :=
  let n := c.toNat
  9 ≤ n ∧ n ≤ 13 || n == 0x20 || n == 0x85 || n == 0xA0 || n == 0x1680 ||
    0x2000 ≤ n ∧ n ≤ 0x200A || n == 0x2028 || n == 0x2029 || n == 0x202F || n == 0x205F ||
    n == 0x3000

/-- puts a finished word, if there is one, before the others -/
def consWord (word : List Char) (rest : List (List Char)) : List (List Char) :=
  if word.isEmpty then rest else word :: rest

/-- puts a character before the word under way and the words behind it -/
def addToWords (c : Char) (state : List Char × List (List Char)) : List Char × List (List Char) :=
  if isBlank c then ([], consWord state.1 state.2) else (c :: state.1, state.2)

def words (text : List Char) : List (List Char) :=
  let state := text.foldr addToWords ([], [])
  consWord state.1 state.2

end Cartridge.Text
