import Cartridge.Layout.Reader
import Cartridge.Proofs.Layout.Tokens

/-!
# Reading what is written

The reader goes over the tokens of an object with some fields of a layout, in any order and with any
blanks between them, and replaces the fields of the standard layout one by one.

* `Layout.taking`            a layout with some fields as another one has them;
* `readRanges_written`, `readField_written`, `readMembers_written`   the parts, as they are written;
* `ofText_written`           **what is read from the whole object.**
-/

namespace Cartridge.Layout

open Json (Token Written items bracketedTokens nextElement endList readNatural scanString)

/-! ## layouts with some fields of another one -/

/-- `base` with the fields `fields` as `l` has them -/
def taking (l : Layout) (fields : List Field) (base : Layout) : Layout :=
  fields.foldl (fun acc f => f.set (f.get l) acc) base

theorem get_taking (l : Layout) (fields : List Field) (base : Layout) (f : Field) :
    f.get (l.taking fields base) = if f ∈ fields then f.get l else f.get base := by
  induction fields generalizing base with
  | nil => rfl
  | cons g fields ih =>
    rw [taking, List.foldl_cons, ← taking, ih]
    by_cases hmem : f ∈ fields
    · rw [if_pos hmem, if_pos (List.mem_cons_of_mem g hmem)]
    · rw [if_neg hmem]
      by_cases hg : f = g
      · subst hg
        rw [if_pos List.mem_cons_self, Field.get_set]
      · rw [if_neg (by simp [hg, hmem]), Field.get_set_of_ne hg]

/-! ## reading ranges -/

section
variable {ts : List Token} {text : List Char}

theorem readBound_written {first : Bool} {n : Nat} {parts : List (List Token)} (hn : n < 2 ^ 64)
    (h : Written (items first ([.number n] :: parts) ++ .mark .closeList :: ts) text) :
    ∃ rest, readBound first text = .ok (n, rest) ∧
      Written (items false parts ++ .mark .closeList :: ts) rest := by
  obtain ⟨behind, hnext, h⟩ := Json.nextElement_part h nofun
  obtain ⟨m, ts', hmark⟩ := Json.exists_mark_items parts .closeList ts
  rw [hmark] at h ⊢
  obtain ⟨rest, hread, hrest⟩ := h.number (Json.Number.le_maxNatural hn)
  exact ⟨rest, by rw [readBound, hnext]; exact hread, hrest⟩

theorem readRange_written {r : Range} (hr : r.start < 2 ^ 64 ∧ r.stop < 2 ^ 64)
    (h : Written (rangeTokens r ++ ts) text) :
    ∃ rest, readRange text = .ok (r, rest) ∧ Written ts rest := by
  rw [rangeTokens, bracketedTokens, List.cons_append, List.append_assoc] at h
  obtain ⟨inner, hopen, h⟩ := h.mark
  obtain ⟨behind, hstart, h⟩ := readBound_written hr.1 h
  obtain ⟨last, hstop, h⟩ := readBound_written hr.2 h
  obtain ⟨rest, hend, hrest⟩ := Json.endList_end h
  refine ⟨rest, ?_, hrest⟩
  rw [readRange, hopen]
  simp only [Json.Mark.char, ne_eq, not_true, if_false, hstart, hstop, hend]

theorem readRangesFrom_end {first : Bool} {done : List Range}
    (h : nextElement first text = .ok none) :
    readRangesFrom first done text = (endList text).map (done.reverse, ·) := by
  rw [readRangesFrom]
  split <;> simp_all

theorem readRangesFrom_range {first : Bool} {done : List Range} {r : Range}
    {behind rest : List Char} (hnext : nextElement first text = .ok (some behind))
    (hrange : readRange behind = .ok (r, rest)) :
    readRangesFrom first done text = readRangesFrom false (r :: done) rest := by
  -- the reader matches on the answers of its parts: all but the given ones are refuted
  rw [readRangesFrom]
  split
  · simp_all
  · simp_all
  · rename_i heq
    rw [hnext] at heq
    cases heq
    split <;> simp_all

/-- by induction on the ranges that are left; `first` is true of the first of them only, and `done`
gathers them -/
theorem readRangesFrom_written {first : Bool} {rs done : List Range}
    (hrs : ∀ r ∈ rs, r.start < 2 ^ 64 ∧ r.stop < 2 ^ 64)
    (h : Written (items first (rs.map rangeTokens) ++ .mark .closeList :: ts) text) :
    ∃ rest, readRangesFrom first done text = .ok (done.reverse ++ rs, rest) ∧ Written ts rest := by
  induction rs generalizing first done text with
  | nil =>
    obtain ⟨rest, hend, hrest⟩ := Json.endList_end h
    refine ⟨rest, ?_, hrest⟩
    rw [readRangesFrom_end (Json.nextElement_end h first), hend, List.append_nil]
    rfl
  | cons r rs ih =>
    rw [List.forall_mem_cons] at hrs
    obtain ⟨behind, hnext, hbehind⟩ := Json.nextElement_part h nofun
    obtain ⟨between, hrange, hbetween⟩ := readRange_written hrs.1 hbehind
    obtain ⟨rest, hread, hrest⟩ := ih hrs.2 hbetween
    refine ⟨rest, ?_, hrest⟩
    rw [readRangesFrom_range hnext hrange, hread, List.reverse_cons, List.append_assoc,
      List.singleton_append]

theorem readRanges_written {rs : List Range}
    (hrs : ∀ r ∈ rs, r.start < 2 ^ 64 ∧ r.stop < 2 ^ 64)
    (h : Written (bracketedTokens .openList .closeList (rs.map rangeTokens) ++ ts) text) :
    ∃ rest, readRanges text = .ok (rs, rest) ∧ Written ts rest := by
  rw [bracketedTokens, List.cons_append, List.append_assoc] at h
  obtain ⟨inner, hopen, h⟩ := h.mark
  obtain ⟨rest, hread, hrest⟩ := readRangesFrom_written hrs h
  refine ⟨rest, ?_, hrest⟩
  rw [readRanges, hopen]
  exact hread

/-! ## reading keys -/

/-- in an object the next key is found behind its comma, if there is one -/
theorem nextKey_part {first : Bool} {key : List Char} {part : List Token}
    {parts : List (List Token)}
    (h : Written (items first ((.string key :: part) :: parts) ++ ts) text) :
    ∃ quoted rest, nextKey first text = .ok (.key quoted) ∧
      scanString [] quoted = .ok (key, rest) ∧
      Written (part ++ (items false parts ++ ts)) rest := by
  cases first with
  | true =>
    obtain ⟨quoted, rest, heq, hscan, hrest⟩ := h.first_part.string
    refine ⟨quoted, rest, ?_, hscan, hrest⟩
    rw [nextKey, heq]
    rfl
  | false =>
    obtain ⟨behind, hcomma, hpart⟩ := h.further_part
    obtain ⟨quoted, rest, heq, hscan, hrest⟩ := hpart.string
    refine ⟨quoted, rest, ?_, hscan, hrest⟩
    rw [nextKey, hcomma]
    simp only [heq]
    rfl

theorem nextKey_end (first : Bool) (h : Written (.mark .closeObject :: ts) text) :
    ∃ rest, nextKey first text = .ok (.done rest) ∧ Written ts rest := by
  obtain ⟨rest, heq, hrest⟩ := h.mark
  exact ⟨rest, by rw [nextKey, heq]; rfl, hrest⟩

theorem behindColon_written (h : Written (.mark .colon :: ts) text) :
    ∃ rest, behindColon text = .ok rest ∧ Written ts rest := by
  obtain ⟨rest, heq, hrest⟩ := h.mark
  exact ⟨rest, by rw [behindColon, heq]; rfl, hrest⟩

theorem readMembers_done {acc : Layout} {seen : List Field} {first : Bool} {rest : List Char}
    (h : nextKey first text = .ok (.done rest)) :
    readMembers acc seen first text = .ok (acc, rest) := by
  rw [readMembers]
  split <;> simp_all

theorem readMembers_member {acc acc' : Layout} {seen : List Field} {first : Bool} {f : Field}
    {quoted behind rest : List Char} (hf : f ∉ seen)
    (hkey : nextKey first text = .ok (.key quoted))
    (hname : scanString [] quoted = .ok (f.name.toList, behind))
    (hmember : readMember acc (some f) behind = .ok (acc', rest)) :
    readMembers acc seen first text = readMembers acc' (f :: seen) false rest := by
  have hfresh : ¬ isRepeated seen (some f) = true := by
    rwa [isRepeated, List.contains_iff_mem]
  rw [readMembers]
  split
  · simp_all
  · simp_all
  · rename_i heq
    rw [hkey] at heq
    cases heq
    split
    · simp_all
    · rename_i heq
      rw [hname] at heq
      cases heq
      simp only [Field.ofName?_name, if_neg hfresh]
      split <;> simp_all [Field.ofName?_name]

/-! ## reading members -/

section
variable {l : Layout} (hl : l.Fits)
include hl

/-- a value in front of a mark is read into its field -/
theorem readField_written {acc : Layout} {f : Field} {m : Json.Mark}
    (h : Written (l.valueTokens f ++ .mark m :: ts) text) :
    ∃ rest, readField acc f text = .ok (f.set (f.get l) acc, rest) ∧
      Written (.mark m :: ts) rest := by
  cases f with
  | number f =>
    obtain ⟨rest, hread, hrest⟩ := h.number (Json.Number.le_maxNatural (hl.numbers f))
    exact ⟨rest, by rw [readField, hread]; rfl, hrest⟩
  | freeRanges =>
    obtain ⟨rest, hread, hrest⟩ := readRanges_written hl.ranges h
    exact ⟨rest, by rw [readField, hread]; rfl, hrest⟩

/-- by induction on the fields that are left: none of them is among those that were seen -/
theorem readMembers_written {acc : Layout} {fields seen : List Field} {first : Bool}
    (hnodup : fields.Nodup) (hseen : ∀ f ∈ fields, f ∉ seen)
    (h : Written (items first (fields.map l.memberTokens) ++ .mark .closeObject :: ts) text) :
    ∃ rest, readMembers acc seen first text = .ok (l.taking fields acc, rest) ∧
      Written ts rest := by
  induction fields generalizing acc seen first text with
  | nil =>
    obtain ⟨rest, hend, hrest⟩ := nextKey_end first h
    exact ⟨rest, readMembers_done hend, hrest⟩
  | cons f fields ih =>
    obtain ⟨hfresh, hnodup⟩ := List.nodup_cons.mp hnodup
    rw [List.forall_mem_cons] at hseen
    obtain ⟨quoted, colon, hkey, hname, h⟩ := nextKey_part h
    obtain ⟨value, hcolon, h⟩ := behindColon_written h
    obtain ⟨m, ts', hmark⟩ := Json.exists_mark_items (fields.map l.memberTokens) .closeObject ts
    rw [hmark] at h
    obtain ⟨between, hvalue, h⟩ := readField_written hl h
    rw [← hmark] at h
    have hmember : readMember acc (some f) colon = .ok (f.set (f.get l) acc, between) := by
      rw [readMember, hcolon]
      exact hvalue
    -- the fields behind this one are other ones
    have hseen' : ∀ g ∈ fields, g ∉ f :: seen := by
      intro g hg hmem
      rcases List.mem_cons.mp hmem with rfl | hmem
      · exact hfresh hg
      · exact hseen.2 g hg hmem
    obtain ⟨rest, hread, hrest⟩ := ih hnodup hseen' h
    exact ⟨rest, by rw [readMembers_member hseen.1 hkey hname hmember]; exact hread, hrest⟩

/-- **An object with some fields of a layout is read as the standard layout with these fields
replaced**, whatever their order and the blanks between the tokens. -/
theorem ofText_written {fields : List Field} (hnodup : fields.Nodup)
    (h : Written (l.tokens fields) text) : ofText text = .ok (l.taking fields standard) := by
  rw [tokens, bracketedTokens] at h
  obtain ⟨inner, hopen, h⟩ := h.mark
  obtain ⟨rest, hread, hrest⟩ :=
    @readMembers_written _ _ l hl standard _ _ _ hnodup (fun f _ => List.not_mem_nil) h
  have hlayout : readLayout text = .ok (l.taking fields standard, rest) := by
    rw [readLayout, hopen]
    exact hread
  rw [ofText, hlayout]
  exact if_pos hrest.isEmpty_skipBlanks

end

end

end Cartridge.Layout
