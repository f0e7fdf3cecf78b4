import Cartridge.Layout.Printer
import Cartridge.Proofs.Json.Tokens

/-!
# Layout texts as tokens

A layout text has the tokens of an object with some fields of a layout.  The printer writes those of
an object with all of them.

* `Field.get`, `Field.set`   the value of a field, and `Field.get_set`, `Field.get_set_of_ne`,
                             `Field.get_set_cons`;
* `Field.eq_of_get`, `Field.name_injective`   the fields make the layout, and have different names;
* `Layout.Fits`              every number of a layout fits into 64 bits;
* `Layout.tokens`            the tokens of an object with some fields of a layout;
* `written_object`, `written_text`   the printer writes such objects, and a layout as the one with all
                             fields.
-/

namespace Cartridge.Layout

open Json (Token Written bracketedTokens)

/-! ## fields -/

namespace Field

def Value : Field → Type
  | number _ => Nat
  | freeRanges => List Range

def get : (f : Field) → Layout → f.Value
  | number f, l => f.get l
  | freeRanges, l => l.freeRanges

def set : (f : Field) → f.Value → Layout → Layout
  | number f, n, l => f.set n l
  | freeRanges, rs, l => { l with freeRanges := rs }

theorem get_set (f : Field) (v : f.Value) (l : Layout) : f.get (f.set v l) = v := by
  cases f with
  | number f => exact f.get_set v l
  | freeRanges => rfl

theorem get_set_of_ne {f g : Field} (h : f ≠ g) (v : g.Value) (l : Layout) :
    f.get (g.set v l) = f.get l := by
  cases f with
  | number f =>
    cases g with
    | number g => exact NumberField.get_set_of_ne (fun heq => h (congrArg number heq)) v l
    | freeRanges => cases f <;> rfl
  | freeRanges =>
    cases g with
    | number g => cases g <;> rfl
    | freeRanges => exact absurd rfl h

/-- layouts that agree on every field are the same -/
theorem eq_of_get {l l' : Layout} (h : ∀ f : Field, f.get l = f.get l') : l = l' := by
  cases l
  cases l'
  congr
  · exact h (.number .bankSize)
  · exact h (.number .romBase)
  · exact h (.number .locationTable)
  · exact h (.number .locationRecordSize)
  · exact h (.number .locationCount)
  · exact h (.number .eventIndexField)
  · exact h (.number .boundsField)
  · exact h (.number .eventPointerTable)
  · exact h (.number .eventPointerCount)
  · exact h .freeRanges

/-- one more field of `l`, in a layout that has some of its fields already -/
theorem get_set_cons {l base other : Layout} {f g : Field} {fields : List Field}
    (h : g.get base = if g ∈ fields then g.get l else g.get other) :
    g.get (f.set (f.get l) base) = if g ∈ f :: fields then g.get l else g.get other := by
  by_cases hg : g = f
  · subst hg
    rw [if_pos List.mem_cons_self, get_set]
  · rw [get_set_of_ne hg, h]
    simp only [List.mem_cons, hg, false_or]

theorem ofName?_name (f : Field) : ofName? f.name.toList = some f := by
  cases f with
  | number f => cases f <;> decide
  | freeRanges => decide

theorem name_injective : Function.Injective name := by
  intro f g h
  have hf := ofName?_name f
  rw [h, ofName?_name g] at hf
  exact (Option.some.inj hf).symm

end Field

/-! ## tokens -/

/-- every number of the layout fits into 64 bits -/
structure Fits (l : Layout) : Prop where
  numbers : ∀ f : NumberField, f.get l < 2 ^ 64
  ranges : ∀ r ∈ l.freeRanges, r.start < 2 ^ 64 ∧ r.stop < 2 ^ 64

def rangeTokens (r : Range) : List Token :=
  bracketedTokens .openList .closeList [[.number r.start], [.number r.stop]]

def valueTokens (l : Layout) : Field → List Token
  | .number f => [.number (f.get l)]
  | .freeRanges => bracketedTokens .openList .closeList (l.freeRanges.map rangeTokens)

def memberTokens (l : Layout) (f : Field) : List Token :=
  .string f.name.toList :: .mark .colon :: l.valueTokens f

/-- an object with the fields `fields` of a layout, in this order -/
def tokens (l : Layout) (fields : List Field) : List Token :=
  bracketedTokens .openObject .closeObject (fields.map l.memberTokens)

/-! ## printing -/

theorem written_range (r : Range) : Written (rangeTokens r) (rangeText r) :=
  @Json.written_bracketed _ (fun n => [.number n]) Json.number 2 .openList .closeList
    [r.start, r.stop] fun n _ => (Token.Writes.number n).written

theorem written_field (l : Layout) (f : Field) : Written (l.valueTokens f) (l.fieldText f) := by
  cases f with
  | number f => exact (Token.Writes.number _).written
  | freeRanges => exact Json.written_bracketed 1 .openList .closeList fun r _ => written_range r

theorem writesChars_name (f : Field) : Json.WritesChars f.name.toList f.name.toList := by
  apply Json.writesChars_plain
  cases f with
  | number f => cases f <;> decide
  | freeRanges => decide

theorem written_member (l : Layout) (f : Field) :
    Written (l.memberTokens f) (Json.member f.name (l.fieldText f)) := by
  have hkey := (Token.Writes.string (writesChars_name f)).written
  have hcolon := (Token.Writes.mark .colon).written
  -- a blank stands behind the colon
  have hvalue := @Written.blank _ _ ' ' rfl (written_field l f)
  have hmember := hkey.append (hcolon.append hvalue)
  simpa [memberTokens, Json.member, Json.Mark.char] using hmember

theorem written_object (l : Layout) (fields : List Field) :
    Written (l.tokens fields)
      (Json.object 0 (fields.map fun f => Json.member f.name (l.fieldText f))) :=
  Json.written_bracketed 0 .openObject .closeObject fun f _ => written_member l f

/-- **The printer writes the object with all fields.** -/
theorem written_text (l : Layout) : Written (l.tokens Field.all) l.text :=
  l.written_object Field.all

end Cartridge.Layout
