import Cartridge.Json.Scan

/-!
# Values that do not matter

A value of an unknown field is checked and passed over, however deep it is nested.

* `Frame`        a list or an object that is still open;
* `skipStep`     from the start of a value to the start of the next one, or behind all of it when no
                 frame is left open;
* `skipValue`    behind the whole value.
-/

namespace Cartridge.Json

open Text (isDigit)

/-- what is left of a word behind its first letter -/
def restOfWord? : Char → Option (List Char)
  | 'n' => some "ull".toList
  | 't' => some "rue".toList
  | 'f' => some "alse".toList
  | _ => none

/-- a word, a number or a string -/
def skipScalar : List Char → Except LayoutFault (List Char)
  | [] => .error .endsEarly
  | c :: rest =>
    match restOfWord? c with
    | some word => expectWord word rest
    | none =>
      if c = '"' then skipString rest
      else if c = '-' ∨ isDigit c then (scanNumber .malformed (c :: rest)).map Prod.snd
      else .error .malformed

/-! ## frames -/

inductive Frame where
  | list | object
  deriving DecidableEq, Repr

namespace Frame

def opened? : Char → Option Frame
  | '[' => some list
  | '{' => some object
  | _ => none

def closing : Frame → Char
  | list => ']'
  | object => '}'

/-- what stands before a value: nothing in a list, a key and a colon in an object -/
def skipKey : Frame → List Char → Except LayoutFault (List Char)
  | list, text => .ok text
  | object, text =>
    match skipBlanks text with
    | [] => .error .endsEarly
    | '"' :: rest =>
      match skipString rest with
      | .error fault => .error fault
      | .ok rest =>
        match skipBlanks rest with
        | [] => .error .endsEarly
        | ':' :: rest => .ok rest
        | _ => .error .malformed
    | _ => .error .malformed

end Frame

/-- behind a value: on to the next value of the innermost frame that has one -/
def afterValue : List Frame → List Char → Except LayoutFault (List Frame × List Char)
  | [], text => .ok ([], text)
  | frame :: frames, text =>
    match skipBlanks text with
    | [] => .error .endsEarly
    | c :: rest =>
      if c = ',' then (frame.skipKey rest).map (frame :: frames, ·)
      else if c = frame.closing then afterValue frames rest
      else .error .malformed

def skipStep (frames : List Frame) (text : List Char) :
    Except LayoutFault (List Frame × List Char) :=
  match skipBlanks text with
  | [] => .error .endsEarly
  | c :: rest =>
    match Frame.opened? c with
    | none =>
      match skipScalar (c :: rest) with
      | .error fault => .error fault
      | .ok rest => afterValue frames rest
    | some frame =>
      match skipBlanks rest with
      | [] => .error .endsEarly
      | d :: inner =>
        if d = frame.closing then afterValue frames inner
        else (frame.skipKey (d :: inner)).map (frame :: frames, ·)

/-! ## progress -/

theorem length_skipScalar {text rest : List Char} (h : skipScalar text = .ok rest) :
    rest.length < text.length := by
  cases text with
  | nil => cases h
  | cons c text =>
    rw [skipScalar] at h
    split at h
    · exact Nat.lt_succ_of_le (length_expectWord h)
    split at h
    · exact Nat.lt_succ_of_lt (length_skipString h)
    split at h
    · cases hn : scanNumber .malformed (c :: text) with
      | error fault => rw [hn] at h; cases h
      | ok r =>
        rw [hn] at h
        cases h
        exact length_scanNumber hn
    · cases h

theorem length_skipKey {frame : Frame} {text rest : List Char}
    (h : frame.skipKey text = .ok rest) : rest.length ≤ text.length := by
  cases frame with
  | list => cases h; exact Nat.le_refl _
  | object =>
    rw [Frame.skipKey] at h
    have h0 := length_skipBlanks text
    split at h
    · cases h
    · rename_i key hkey
      rw [hkey] at h0
      split at h
      · cases h
      rename_i rest1 hstring
      have h1 := length_skipString hstring
      have h2 := length_skipBlanks rest1
      split at h
      · cases h
      · rename_i rest2 hrest2
        cases h
        rw [hrest2] at h2
        simp only [List.length_cons] at h0 h2
        omega
      · cases h
    · cases h

theorem length_afterValue {frames : List Frame} {text : List Char}
    {r : List Frame × List Char} (h : afterValue frames text = .ok r) :
    r.2.length ≤ text.length := by
  induction frames generalizing text with
  | nil => cases h; exact Nat.le_refl _
  | cons frame frames ih =>
    rw [afterValue] at h
    have h0 := length_skipBlanks text
    split at h
    · cases h
    rename_i c rest hc
    rw [hc, List.length_cons] at h0
    split at h
    · cases hk : frame.skipKey rest with
      | error fault => rw [hk] at h; cases h
      | ok rest' =>
        rw [hk] at h
        cases h
        have := length_skipKey hk
        exact Nat.le_trans this (Nat.le_of_succ_le h0)
    split at h
    · exact Nat.le_trans (ih h) (Nat.le_of_succ_le h0)
    · cases h

theorem length_skipStep {frames : List Frame} {text : List Char} {r : List Frame × List Char}
    (h : skipStep frames text = .ok r) : r.2.length < text.length := by
  unfold skipStep at h
  have h0 := length_skipBlanks text
  split at h
  · cases h
  rename_i c rest hc
  rw [hc] at h0
  split at h
  · split at h
    · cases h
    · rename_i rest' hs
      have h1 := length_skipScalar hs
      have h2 := length_afterValue h
      omega
  · rename_i frame _
    have h1 := length_skipBlanks rest
    split at h
    · cases h
    rename_i d inner hd
    rw [hd] at h1
    simp only [List.length_cons] at h0 h1
    split at h
    · have h2 := length_afterValue h
      omega
    · cases hk : frame.skipKey (d :: inner) with
      | error fault => rw [hk] at h; cases h
      | ok rest' =>
        rw [hk] at h
        cases h
        have h2 := length_skipKey hk
        simp only [List.length_cons] at h2 ⊢
        omega

/-! ## whole values -/

/-- on from the start of a value inside `frames`, to behind the outermost of them -/
def skipFrom (frames : List Frame) (text : List Char) : Except LayoutFault (List Char) :=
  match _ : skipStep frames text with
  | .error fault => .error fault
  | .ok ([], rest) => .ok rest
  | .ok (frame :: frames, rest) => skipFrom (frame :: frames) rest
termination_by text.length
decreasing_by exact length_skipStep ‹_›

theorem length_skipFrom {frames : List Frame} {text rest : List Char}
    (h : skipFrom frames text = .ok rest) : rest.length < text.length := by
  fun_induction skipFrom frames text with
  | case1 => cases h
  | case2 frames text rest' hstep => cases h; exact length_skipStep hstep
  | case3 frames text frame frames' rest' hstep ih =>
    exact Nat.lt_trans (ih h) (length_skipStep hstep)

def skipValue (text : List Char) : Except LayoutFault (List Char) := skipFrom [] text

end Cartridge.Json
