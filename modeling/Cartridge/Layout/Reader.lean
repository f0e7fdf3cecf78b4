import Cartridge.Json.List
import Cartridge.Layout.Field

/-!
# Reading layouts

A layout text is a JSON object with some of the fields, in any order and at most once each, or a
list of the values of the first so many fields.  Fields that are missing have their standard value;
fields of other names are checked and ignored.

Nothing is said of layout texts in general by this reader; it is one that does what a codec promises
(`Layout.codec_documented`).

* `readRange`, `readRanges`   two numbers, and a list of such pairs;
* `readField`                 the value of a field, into a layout;
* `readMembers`               the members of an object;
* `readElements`              the elements of a list;
* `Layout.ofText`             the layout of a whole text.
-/

namespace Cartridge.Layout

open Json (skipBlanks nextElement endList unexpected readNatural scanString skipValue)

/-! ## ranges -/

/-- one of two numbers; a list that ends before it is too short -/
def readBound (first : Bool) (text : List Char) : Except LayoutFault (Nat × List Char) :=
  match nextElement first text with
  | .error fault => .error fault
  | .ok none => .error .wrongShape
  | .ok (some rest) => readNatural rest

def readRange (text : List Char) : Except LayoutFault (Range × List Char) :=
  match skipBlanks text with
  | [] => .error .endsEarly
  | c :: rest =>
    if c ≠ '[' then .error (unexpected (c :: rest))
    else match readBound true rest with
      | .error fault => .error fault
      | .ok (start, rest) =>
        match readBound false rest with
        | .error fault => .error fault
        | .ok (stop, rest) =>
          match endList rest with
          | .error fault => .error fault
          | .ok rest => .ok (⟨start, stop⟩, rest)

theorem length_readBound {first : Bool} {text : List Char} {r : Nat × List Char}
    (h : readBound first text = .ok r) : r.2.length < text.length := by
  unfold readBound at h
  split at h
  · cases h
  · cases h
  · rename_i rest hn
    exact Nat.lt_of_lt_of_le (Json.length_readNatural h) (Json.length_nextElement hn)

theorem length_readRange {text : List Char} {r : Range × List Char}
    (h : readRange text = .ok r) : r.2.length < text.length := by
  unfold readRange at h
  have h0 := Json.length_skipBlanks text
  split at h
  · cases h
  rename_i c rest hc
  rw [hc, List.length_cons] at h0
  split at h
  · cases h
  split at h
  · cases h
  rename_i start rest1 h1
  split at h
  · cases h
  rename_i stop rest2 h2
  split at h
  · cases h
  rename_i rest3 h3
  cases h
  have h1 := length_readBound h1
  have h2 := length_readBound h2
  have h3 := Json.length_endList h3
  simp only at h1 h2 h3 ⊢
  omega

/-- the ranges so far are in `done`, last first -/
def readRangesFrom (first : Bool) (done : List Range) (text : List Char) :
    Except LayoutFault (List Range × List Char) :=
  match _ : nextElement first text with
  | .error fault => .error fault
  | .ok none => (endList text).map (done.reverse, ·)
  | .ok (some rest) =>
    match _ : readRange rest with
    | .error fault => .error fault
    | .ok (r, rest') => readRangesFrom false (r :: done) rest'
termination_by text.length
decreasing_by
  exact Nat.lt_of_lt_of_le (length_readRange ‹readRange rest = .ok (r, rest')›)
    (Json.length_nextElement ‹_›)

theorem length_readRangesFrom {first : Bool} {done : List Range} {text : List Char}
    {r : List Range × List Char} (h : readRangesFrom first done text = .ok r) :
    r.2.length < text.length := by
  fun_induction readRangesFrom first done text with
  | case1 => cases h
  | case2 first done text _ =>
    cases he : endList text with
    | error fault => rw [he] at h; cases h
    | ok rest => rw [he] at h; cases h; exact Json.length_endList he
  | case3 => cases h
  | case4 first done text rest hn r rest' hr ih =>
    have h1 := Json.length_nextElement hn
    have h2 := length_readRange hr
    have h3 := ih h
    simp only at h2
    omega

def readRanges (text : List Char) : Except LayoutFault (List Range × List Char) :=
  match skipBlanks text with
  | [] => .error .endsEarly
  | c :: rest => if c = '[' then readRangesFrom true [] rest else .error (unexpected (c :: rest))

theorem length_readRanges {text : List Char} {r : List Range × List Char}
    (h : readRanges text = .ok r) : r.2.length < text.length := by
  unfold readRanges at h
  have h0 := Json.length_skipBlanks text
  split at h
  · cases h
  rename_i c rest hc
  rw [hc, List.length_cons] at h0
  split at h
  · exact Nat.lt_of_lt_of_le (length_readRangesFrom h) (Nat.le_of_succ_le h0)
  · cases h

/-! ## fields -/

def readField (l : Layout) (f : Field) (text : List Char) :
    Except LayoutFault (Layout × List Char) :=
  match f with
  | .number f => (readNatural text).map fun (n, rest) => (f.set n l, rest)
  | .freeRanges => (readRanges text).map fun (rs, rest) => ({ l with freeRanges := rs }, rest)

theorem length_readField {l : Layout} {f : Field} {text : List Char} {r : Layout × List Char}
    (h : readField l f text = .ok r) : r.2.length < text.length := by
  cases f with
  | number f =>
    cases hn : readNatural text with
    | error fault => rw [readField, hn] at h; cases h
    | ok v => rw [readField, hn] at h; cases h; exact Json.length_readNatural hn
  | freeRanges =>
    cases hn : readRanges text with
    | error fault => rw [readField, hn] at h; cases h
    | ok v => rw [readField, hn] at h; cases h; exact length_readRanges hn

/-! ## objects -/

/-- the start of the next key of an object, behind its quote, or the rest behind the object -/
inductive NextKey where
  | key (rest : List Char)
  | done (rest : List Char)
  deriving DecidableEq, Repr

/-- a key starts here -/
def startKey : List Char → Except LayoutFault NextKey
  | [] => .error .endsEarly
  | c :: rest => if c = '"' then .ok (.key rest) else .error .malformed

/-- behind the opening bracket (`first`) or behind a member; a comma must be followed by a key -/
def nextKey (first : Bool) (text : List Char) : Except LayoutFault NextKey :=
  match skipBlanks text with
  | [] => .error .endsEarly
  | c :: rest =>
    if c = '}' then .ok (.done rest)
    else if first then startKey (c :: rest)
    else if c = ',' then startKey (skipBlanks rest)
    else .error .malformed

/-- what stands behind a colon -/
def behindColon (text : List Char) : Except LayoutFault (List Char) :=
  match skipBlanks text with
  | [] => .error .endsEarly
  | c :: rest => if c = ':' then .ok rest else .error .malformed

/-- a member from behind its key on: into the layout, or passed over -/
def readMember (l : Layout) (field? : Option Field) (text : List Char) :
    Except LayoutFault (Layout × List Char) :=
  match behindColon text with
  | .error fault => .error fault
  | .ok rest =>
    match field? with
    | some f => readField l f rest
    | none => (skipValue rest).map (l, ·)

theorem length_startKey {text rest : List Char} (h : startKey text = .ok (.key rest)) :
    rest.length < text.length := by
  cases text with
  | nil => cases h
  | cons c text =>
    rw [startKey] at h
    split at h
    · cases h; exact Nat.lt_succ_self _
    · cases h

theorem length_nextKey {first : Bool} {text rest : List Char}
    (h : nextKey first text = .ok (.key rest)) : rest.length < text.length := by
  unfold nextKey at h
  have h0 := Json.length_skipBlanks text
  split at h
  · cases h
  rename_i c rest1 hc
  rw [hc, List.length_cons] at h0
  split at h
  · cases h
  split at h
  · have := length_startKey h
    rw [List.length_cons] at this
    omega
  split at h
  · have h1 := Json.length_skipBlanks rest1
    have h2 := length_startKey h
    omega
  · cases h

theorem length_behindColon {text rest : List Char} (h : behindColon text = .ok rest) :
    rest.length < text.length := by
  unfold behindColon at h
  have h0 := Json.length_skipBlanks text
  split at h
  · cases h
  rename_i c rest1 hc
  rw [hc, List.length_cons] at h0
  split at h
  · cases h; exact h0
  · cases h

theorem length_readMember {l : Layout} {field? : Option Field} {text : List Char}
    {r : Layout × List Char} (h : readMember l field? text = .ok r) :
    r.2.length < text.length := by
  unfold readMember at h
  split at h
  · cases h
  rename_i rest hcolon
  have h0 := length_behindColon hcolon
  split at h
  · exact Nat.lt_trans (length_readField h) h0
  · cases hs : skipValue rest with
    | error fault => rw [hs] at h; cases h
    | ok rest' =>
      rw [hs] at h
      cases h
      exact Nat.lt_trans (Json.length_skipFrom hs) h0

/-- whether a field is among those that were given already -/
def isRepeated (seen : List Field) : Option Field → Bool
  | some f => seen.contains f
  | none => false

/-- `seen` are the fields given so far -/
def readMembers (l : Layout) (seen : List Field) (first : Bool) (text : List Char) :
    Except LayoutFault (Layout × List Char) :=
  match _ : nextKey first text with
  | .error fault => .error fault
  | .ok (.done rest) => .ok (l, rest)
  | .ok (.key rest) =>
    match _ : scanString [] rest with
    | .error fault => .error fault
    | .ok (key, rest') =>
      let field? := Field.ofName? key
      if isRepeated seen field? then .error .wrongShape
      else match _ : readMember l field? rest' with
        | .error fault => .error fault
        | .ok (l', rest'') => readMembers l' (field?.toList ++ seen) false rest''
termination_by text.length
decreasing_by
  have h1 := length_nextKey ‹nextKey first text = .ok (.key rest)›
  have h2 := Json.length_scanString ‹scanString [] rest = .ok (key, rest')›
  have h3 := length_readMember ‹readMember l field? rest' = .ok (l', rest'')›
  simp only at h2 h3
  omega

/-! ## lists -/

/-- the values of `fields` as far as the list has them -/
def readElements (l : Layout) (first : Bool) :
    List Field → List Char → Except LayoutFault (Layout × List Char)
  | [], text => (endList text).map (l, ·)
  | f :: fields, text =>
    match nextElement first text with
    | .error fault => .error fault
    | .ok none => (endList text).map (l, ·)
    | .ok (some rest) =>
      match readField l f rest with
      | .error fault => .error fault
      | .ok (l', rest') => readElements l' false fields rest'

/-! ## whole texts -/

def readLayout (text : List Char) : Except LayoutFault (Layout × List Char) :=
  match skipBlanks text with
  | [] => .error .endsEarly
  | c :: rest =>
    if c = '{' then readMembers standard [] true rest
    else if c = '[' then readElements standard true Field.all rest
    else .error (unexpected (c :: rest))

/-- nothing but blanks may follow the value -/
def ofText (text : List Char) : Except LayoutFault Layout :=
  match readLayout text with
  | .error fault => .error fault
  | .ok (l, rest) => if (skipBlanks rest).isEmpty then .ok l else .error .malformed

end Cartridge.Layout
