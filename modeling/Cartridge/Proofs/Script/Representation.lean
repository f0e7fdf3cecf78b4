import Cartridge.Proofs.Script.Built

/-!
# The stored form of an edited script

* `Script.toBytes_of_parse`      what can be parsed is the stored form of what it is parsed to;
* `Script.after`                 the script that a run of edits leaves, those that fail included;
* `Script.WellFormed.after`      a run of edits keeps a script well-formed;
* `Script.representation_after`  **the stored form stands for the script**, whatever the edits.
-/

namespace Cartridge

namespace Script

/-! ## the stored form of what is parsed -/

theorem fields_words {n : Nat} {body : Bytes} (h : 2 * n ≤ body.length) :
    (words n body).flatMap (Bytes.field 2) = body.take (2 * n) := by
  induction n generalizing body with
  | zero => rfl
  | succ n ih =>
    match body with
    | [] => exact absurd h (by rw [List.length_nil]; omega)
    | [_] => exact absurd h (by rw [List.length_singleton]; omega)
    | lo :: hi :: rest =>
      rw [List.length_cons, List.length_cons] at h
      have hfirst : Bytes.field 2 (Bytes.value [lo, hi]) = [lo, hi] := Bytes.field_value [lo, hi]
      rw [words, List.flatMap_cons, ih (by omega), hfirst]
      rfl

theorem toBytes_of_parse {bytes : Bytes} {s : Script} (h : parse bytes = .ok s) :
    s.toBytes = bytes := by
  have hslots := (bounded_of_parse h).length_pointers
  obtain ⟨count, body, rfl, htable, _, rfl, _⟩ := parse_eq_ok h
  have hheader : count.toNat * objectHeader = 2 * (count.toNat * functionsPerObject) := by
    rw [objectHeader, functionsPerObject]
    omega
  have hwords : (words (count.toNat * functionsPerObject) body).length =
      count.toNat * functionsPerObject := length_words (hheader ▸ htable)
  have hobjects : (words (count.toNat * functionsPerObject) body).length / functionsPerObject =
      count.toNat := by
    rw [hwords]
    exact Nat.mul_div_cancel _ (by decide)
  unfold toBytes objectCount
  simp only [hobjects, UInt8.ofNat_toNat, fields_words (hheader ▸ htable), ← hheader,
    List.take_append_drop]

/-! ## runs of edits -/

/-- an edit that fails leaves the script as it was -/
def after (s : Script) : List ScriptEdit → Script
  | [] => s
  | edit :: edits => ((edit.apply s).toOption.getD s).after edits

theorem after_of_ok {s s' : Script} {edit : ScriptEdit} (h : edit.apply s = .ok s')
    (edits : List ScriptEdit) : s.after (edit :: edits) = s'.after edits := by
  rw [after, h]
  rfl

theorem after_of_error {s : Script} {edit : ScriptEdit} {e : Error} (h : edit.apply s = .error e)
    (edits : List ScriptEdit) : s.after (edit :: edits) = s.after edits := by
  rw [after, h]
  rfl

theorem WellFormed.step {s : Script} (h : s.WellFormed) (edit : ScriptEdit) :
    ((edit.apply s).toOption.getD s).WellFormed := by
  cases happly : edit.apply s with
  | error e => exact h
  | ok s' => exact edit.wellFormed h happly

theorem WellFormed.after {s : Script} (h : s.WellFormed) (edits : List ScriptEdit) :
    (s.after edits).WellFormed := by
  induction edits generalizing s with
  | nil => exact h
  | cons edit edits ih => exact ih (h.step edit)

/-- **A script that has been parsed or loaded is at every point of a run of edits what its stored
form says**, and what can be parsed is itself such a form. -/
theorem representation_after {s : Script}
    (h : (∃ bytes, parse bytes = .ok s) ∨ ∃ image offset, load image offset = .ok s)
    (edits : List ScriptEdit) :
    (s.after edits).pointers.length = 16 * (s.after edits).objectCount ∧
    (s.after edits).objectCount ≤ 255 ∧
    (∀ p ∈ (s.after edits).pointers,
      (s.after edits).headerLength ≤ p ∧ p ≤ (s.after edits).length) ∧
    (s.after edits).length ≤ 0xFFFF ∧
    (∃ t, parse (s.after edits).toBytes = .ok t ∧ t.pointers = (s.after edits).pointers ∧
      t.stream = (s.after edits).stream) ∧
    ∀ bytes t, parse bytes = .ok t → t.toBytes = bytes := by
  have hstart : s.WellFormed := by
    obtain ⟨bytes, hparse⟩ | ⟨image, offset, hload⟩ := h
    · exact wellFormed_of_parse hparse
    · exact wellFormed_of_load hload
  have hbounded := (hstart.after edits).toBounded
  refine ⟨?_, hbounded.objects, hbounded.pointers, hbounded.length,
    ⟨_, parse_toBytes hbounded, rfl, rfl⟩, fun bytes t => toBytes_of_parse⟩
  rw [hbounded.length_pointers, Nat.mul_comm]
  rfl

/-- an object, an edit that fails, a copy of the object, and one of the two removed -/
theorem representation_after_objects :
    let s : Script := ⟨[], [], .empty, false⟩
    let edits : List ScriptEdit :=
      [.appendObject, .code (.delete 99 1), .appendCopyOf 0, .removeObject 0]
    let t : Script := ⟨32 :: List.replicate 15 33, [0, 0], ⟨[], true, false, none⟩, true⟩
    parse [0] = .ok s ∧ s.after edits = t ∧ t.pointers.length = 16 * t.objectCount ∧
      t.objectCount ≤ 255 ∧ (∀ p ∈ t.pointers, t.headerLength ≤ p ∧ p ≤ t.length) ∧
      t.length ≤ 0xFFFF ∧
      (∃ u, parse t.toBytes = .ok u ∧ u.pointers = t.pointers ∧ u.stream = t.stream) ∧
      ∀ bytes u, parse bytes = .ok u → u.toBytes = bytes := by
  intro s edits t
  have hparse : parse [0] = .ok s := rfl
  have hafter : s.after edits = t := by decide +kernel
  refine ⟨hparse, hafter, ?_⟩
  rw [← hafter]
  exact representation_after (.inl ⟨[0], hparse⟩) edits

end Script

end Cartridge
