import Cartridge.Json.Skip

/-!
# Numbers and lists of known shape

Readers of values that must have a certain shape.

* `readNatural`    a natural number of 64 bits;
* `unexpected`     the fault of a value of another kind;
* `nextElement`    the start of the next element of a list, if there is one;
* `endList`        the end of a list that has all its elements.
-/

namespace Cartridge.Json

open Text (isDigit)

/-! ## numbers -/

/-- a number within the range of double precision -/
def readNumber (text : List Char) : Except LayoutFault (Number × List Char) :=
  match scanNumber .endsEarly text with
  | .error fault => .error fault
  | .ok (n, rest) => if n.isFinite then .ok (n, rest) else .error .malformed

/-- a value of another kind is wrong, and it may be malformed as well; the brackets of a list or an
object are not looked into -/
def unexpected : List Char → LayoutFault
  | [] => .endsEarly
  | c :: rest =>
    if (Frame.opened? c).isSome then .wrongShape
    else
      let scalar : Except LayoutFault (List Char) :=
        match restOfWord? c with
        | some word => expectWord word rest
        | none =>
          if c = '"' then (scanString [] rest).map Prod.snd
          else if c = '-' ∨ isDigit c then (readNumber (c :: rest)).map Prod.snd
          else .error .malformed
      match scalar with
      | .error fault => fault
      | .ok _ => .wrongShape

def readNatural (text : List Char) : Except LayoutFault (Nat × List Char) :=
  match skipBlanks text with
  | [] => .error .endsEarly
  | c :: rest =>
    if c = '-' ∨ isDigit c then
      match readNumber (c :: rest) with
      | .error fault => .error fault
      | .ok (n, rest) =>
        match n.natural? with
        | some value => .ok (value, rest)
        | none => .error .wrongShape
    else .error (unexpected (c :: rest))

theorem length_readNumber {text : List Char} {r : Number × List Char}
    (h : readNumber text = .ok r) : r.2.length < text.length := by
  unfold readNumber at h
  split at h
  · cases h
  rename_i n rest hn
  split at h
  · cases h; exact length_scanNumber hn
  · cases h

theorem length_readNatural {text : List Char} {r : Nat × List Char}
    (h : readNatural text = .ok r) : r.2.length < text.length := by
  unfold readNatural at h
  have h0 := length_skipBlanks text
  split at h
  · cases h
  rename_i c rest hc
  rw [hc] at h0
  split at h
  · split at h
    · cases h
    rename_i n rest' hn
    split at h
    · cases h
      exact Nat.lt_of_lt_of_le (length_readNumber hn) h0
    · cases h
  · cases h

/-! ## lists -/

/-- behind the opening bracket (`first`) or behind an element; a comma must be followed by an
element -/
def nextElement (first : Bool) (text : List Char) : Except LayoutFault (Option (List Char)) :=
  match skipBlanks text with
  | [] => .error .endsEarly
  | c :: rest =>
    if c = ']' then .ok none
    else if first then .ok (some (c :: rest))
    else if c = ',' then
      match skipBlanks rest with
      | [] => .error .endsEarly
      | d :: inner => if d = ']' then .error .malformed else .ok (some (d :: inner))
    else .error .malformed

def endList (text : List Char) : Except LayoutFault (List Char) :=
  match skipBlanks text with
  | [] => .error .endsEarly
  | c :: rest => if c = ']' then .ok rest else .error .malformed

theorem length_nextElement {first : Bool} {text rest : List Char}
    (h : nextElement first text = .ok (some rest)) : rest.length ≤ text.length := by
  unfold nextElement at h
  have h0 := length_skipBlanks text
  split at h
  · cases h
  rename_i c rest1 hc
  rw [hc] at h0
  split at h
  · cases h
  split at h
  · cases h; exact h0
  split at h
  · have h1 := length_skipBlanks rest1
    split at h
    · cases h
    rename_i d inner hd
    rw [hd] at h1
    split at h
    · cases h
    · cases h
      simp only [List.length_cons] at h0 h1 ⊢
      omega
  · cases h

theorem length_endList {text rest : List Char} (h : endList text = .ok rest) :
    rest.length < text.length := by
  unfold endList at h
  have h0 := length_skipBlanks text
  split at h
  · cases h
  rename_i c rest1 hc
  rw [hc] at h0
  split at h
  · cases h; exact h0
  · cases h

end Cartridge.Json
