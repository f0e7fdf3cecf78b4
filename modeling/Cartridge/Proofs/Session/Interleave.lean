import Cartridge.Proofs.Session.Reachable
import Cartridge.Proofs.Session.Run
import Mathlib.Data.List.Sort

/-!
# Interleaved edits

Edits of several scripts may come in any order.  Each of them sees the script of its own event, and
no other script and nothing of the image is changed by it; so only the order of the edits of one
event matters, also for the blocks that are placed in the end.

* `Cache.Ascends`            a cache stands in the order of its indices, and is known by what is
                             found in it (`Cache.Ascends.ext`);
* `Session.EditAt`           an edit of the script of a location;
* `Session.editEach`         edits one after the other, each with its answer;
* `Session.changesOf`, `Session.answersOf`   the edits of one event, and their answers;
* `Session.editLoadedEach`   the edits of one event, as its script sees them: the run of all edits
                             answers as these (`Session.answersOf_editEach`);
* `Session.commit_of_interleaved`   **the order between the edits of different events is lost.**
-/

namespace Cartridge

/-! ## caches in order -/

namespace Cache

def Ascends (cache : Cache) : Prop := cache.Pairwise fun a b => a.1 < b.1

theorem Ascends.insert {cache : Cache} (h : cache.Ascends) (index : Nat) (entry : CachedScript) :
    Ascends (cache.insert index entry) := by
  induction cache with
  | nil => exact List.pairwise_singleton ..
  | cons old rest ih =>
    obtain ⟨i, old⟩ := old
    obtain ⟨hfirst, hrest⟩ := List.pairwise_cons.mp h
    rw [Cache.insert]
    by_cases hlt : index < i
    · rw [if_pos hlt]
      refine List.pairwise_cons.mpr ⟨List.forall_mem_cons.mpr ⟨hlt, fun found hfound => ?_⟩, h⟩
      exact Nat.lt_trans hlt (hfirst found hfound)
    rw [if_neg hlt]
    by_cases heq : index = i
    · rw [if_pos heq]
      exact List.pairwise_cons.mpr ⟨heq ▸ hfirst, hrest⟩
    · rw [if_neg heq]
      refine List.pairwise_cons.mpr ⟨fun found hfound => ?_, ih hrest⟩
      rcases mem_insert hfound with rfl | hfound
      · show i < index
        omega
      · exact hfirst found hfound

theorem Ascends.mem_iff {cache : Cache} (h : cache.Ascends) {index : Nat} {entry : CachedScript} :
    (index, entry) ∈ cache ↔ cache.get? index = some entry := by
  refine ⟨fun hmem => ?_, mem_of_get?⟩
  obtain ⟨before, behind, rfl⟩ := List.append_of_mem hmem
  refine List.lookup_eq_some_iff.mpr ⟨before, behind, rfl, fun old hold => ?_⟩
  have hlt : old.1 < index := (List.pairwise_append.mp h).2.2 old hold _ (List.mem_cons_self ..)
  exact bne_iff_ne.mpr (Nat.ne_of_gt hlt)

theorem Ascends.ext {cache cache' : Cache} (h : cache.Ascends) (h' : cache'.Ascends)
    (hget : ∀ index, cache.get? index = cache'.get? index) : cache = cache' := by
  have : Std.Irrefl fun a b : Nat × CachedScript => a.1 < b.1 := ⟨fun a => Nat.lt_irrefl a.1⟩
  have : Std.Antisymm fun a b : Nat × CachedScript => a.1 < b.1 :=
    ⟨fun a b hab hba => (Nat.lt_asymm hab hba).elim⟩
  refine List.Pairwise.eq_of_mem_iff h h' fun (index, entry) => ?_
  rw [h.mem_iff, h'.mem_iff, hget]

end Cache

namespace Session

/-- a session is its image and what is found in it -/
theorem eq_of_found {s s' : Session} (h : s.cache.Ascends) (h' : s'.cache.Ascends)
    (himage : s.image = s'.image)
    (hget : ∀ index, s.cache.get? index = s'.cache.get? index) : s = s' := by
  obtain ⟨image, cache⟩ := s
  obtain ⟨image', cache'⟩ := s'
  cases himage
  cases h.ext h' hget
  rfl

/-! ## edits of one event -/

/-- an edit of the script of a location; when it fails part of the way, its answer says so -/
structure EditAt (α : Type) where
  location : Nat
  change : Script → Except Error (α × Script)

/-- the event of a location, if it has one -/
def event? (image : Image) (location : Nat) : Option Nat :=
  ((ofImage image).eventIndex location).toOption

section
variable {α : Type}

def editEach (s : Session) : List (EditAt α) → List (EditAt α × Except Error α) × Session
  | [] => ([], s)
  | e :: edits =>
    let (answer, s) := s.edit e.location e.change
    let (answers, s) := s.editEach edits
    ((e, answer) :: answers, s)

def changesOf (image : Image) (index : Nat) (edits : List (EditAt α)) :
    List (Script → Except Error (α × Script)) :=
  (edits.filter fun e => event? image e.location = some index).map EditAt.change

def answersOf (image : Image) (index : Nat) (answers : List (EditAt α × Except Error α)) :
    List (Except Error α) :=
  (answers.filter fun a => event? image a.1.location = some index).map Prod.snd

/-- the script of an event, when `found?` of it has been loaded -/
def entryOf (image : Image) (index : Nat) : Option CachedScript → Except Error CachedScript
  | none => load image index
  | some entry => .ok entry

/-- an edit as the script of its event sees it -/
def editLoaded (image : Image) (index : Nat) (found? : Option CachedScript)
    (change : Script → Except Error (α × Script)) : Except Error α × Option CachedScript :=
  match entryOf image index found? with
  | .error e => (.error e, none)
  | .ok entry =>
    match change entry.script with
    | .error e => (.error e, some entry)
    | .ok (a, script) => (.ok a, some { entry with script })

def editLoadedEach (image : Image) (index : Nat) (found? : Option CachedScript) :
    List (Script → Except Error (α × Script)) → List (Except Error α) × Option CachedScript
  | [] => ([], found?)
  | change :: changes =>
    let (answer, found?) := editLoaded image index found? change
    let (answers, found?) := editLoadedEach image index found? changes
    (answer :: answers, found?)

/-! ## one edit -/

/-- what is found of the scripts behind a step that is for one event only -/
def FoundOnly (s s' : Session) (index : Nat) (found? : Option CachedScript) : Prop :=
  s'.image = s.image ∧
    ∀ i, s'.cache.get? i = if i = index then found? else s.cache.get? i

theorem foundOnly_self {s : Session} {index : Nat} {found? : Option CachedScript}
    (h : s.cache.get? index = found?) : FoundOnly s s index found? := by
  refine ⟨rfl, fun i => ?_⟩
  by_cases hi : i = index
  · rw [if_pos hi, hi, h]
  · rw [if_neg hi]

theorem FoundOnly.insert {s s' : Session} {index : Nat} {found? : Option CachedScript}
    (h : FoundOnly s s' index found?) (entry : CachedScript) :
    FoundOnly s { s' with cache := s'.cache.insert index entry } index (some entry) := by
  refine ⟨h.1, fun i => ?_⟩
  rw [Cache.get?_insert]
  by_cases hi : i = index
  · rw [if_pos hi, if_pos hi]
  · rw [if_neg hi, if_neg hi, h.2, if_neg hi]

section
variable {s : Session} {location : Nat}

theorem edit_of_error {e : Error} (h : s.eventIndex location = .error e)
    (change : Script → Except Error (α × Script)) : s.edit location change = (.error e, s) := by
  unfold edit fetch
  rw [h]
  rfl

variable {index : Nat} (h : s.eventIndex location = .ok index)
include h

theorem fetch_of_event : s.fetch location =
    match s.cache.get? index with
    | some entry => .ok (index, entry, s)
    | none => (load s.image index).map fun entry =>
        (index, entry, { s with cache := s.cache.insert index entry }) := by
  unfold fetch
  rw [h]
  cases hfound : s.cache.get? index with
  | some entry =>
    simp only [bind, Except.bind, hfound]
    rfl
  | none =>
    simp only [bind, Except.bind, hfound]
    cases load s.image index with
    | error e => rfl
    | ok entry => rfl

theorem fetch_of_error {e : Error}
    (hentry : entryOf s.image index (s.cache.get? index) = .error e) :
    s.fetch location = .error e ∧ s.cache.get? index = none := by
  rw [fetch_of_event h]
  cases hfound : s.cache.get? index with
  | some entry =>
    rw [hfound] at hentry
    cases hentry
  | none =>
    rw [hfound] at hentry
    have hload : load s.image index = .error e := hentry
    simp only [hload, Except.map, and_self]

theorem fetch_of_entry {entry : CachedScript}
    (hentry : entryOf s.image index (s.cache.get? index) = .ok entry) :
    ∃ s', s.fetch location = .ok (index, entry, s') ∧ FoundOnly s s' index (some entry) := by
  rw [fetch_of_event h]
  cases hfound : s.cache.get? index with
  | some found =>
    rw [hfound] at hentry
    cases hentry
    exact ⟨s, rfl, foundOnly_self hfound⟩
  | none =>
    rw [hfound] at hentry
    have hload : load s.image index = .ok entry := hentry
    simp only [hload, Except.map]
    exact ⟨_, rfl, (foundOnly_self hfound).insert entry⟩

/-- the answer is that of the event's script, and no other script is changed -/
theorem edit_of_event (change : Script → Except Error (α × Script)) :
    (s.edit location change).1 = (editLoaded s.image index (s.cache.get? index) change).1 ∧
    FoundOnly s (s.edit location change).2 index
      (editLoaded s.image index (s.cache.get? index) change).2 := by
  unfold edit editLoaded
  cases hentry : entryOf s.image index (s.cache.get? index) with
  | error e =>
    obtain ⟨hfetch, hnone⟩ := fetch_of_error h hentry
    rw [hfetch]
    exact ⟨rfl, foundOnly_self hnone⟩
  | ok entry =>
    obtain ⟨s', hfetch, hfound⟩ := fetch_of_entry h hentry
    rw [hfetch]
    simp only
    cases change entry.script with
    | error e => exact ⟨rfl, hfound⟩
    | ok done => exact ⟨rfl, hfound.insert _⟩

end

theorem ascends_edit {s : Session} (h : s.cache.Ascends) (location : Nat)
    (change : Script → Except Error (α × Script)) : (s.edit location change).2.cache.Ascends := by
  unfold edit
  cases hfetch : s.fetch location with
  | error e => exact h
  | ok found =>
    obtain ⟨index, entry, s'⟩ := found
    have h' : s'.cache.Ascends := by
      rcases fetch_eq_ok hfetch with ⟨_, rfl⟩ | ⟨_, _, rfl⟩
      · exact h
      · exact h.insert index entry
    simp only
    cases change entry.script with
    | error e => exact h'
    | ok done => exact h'.insert ..

/-! ## all edits -/

theorem editEach_cons (s : Session) (e : EditAt α) (edits : List (EditAt α)) :
    s.editEach (e :: edits) =
      ((e, (s.edit e.location e.change).1) :: ((s.edit e.location e.change).2.editEach edits).1,
        ((s.edit e.location e.change).2.editEach edits).2) := rfl

theorem event?_eq_some {s : Session} {location index : Nat} :
    event? s.image location = some index ↔ s.eventIndex location = .ok index := toOption_eq_some

theorem eventIndex_congr {s : Session} {image : Image} (h : s.image = image) (location : Nat) :
    s.eventIndex location = (ofImage image).eventIndex location := by
  subst h
  rfl

theorem image_edit (s : Session) (location : Nat) (change : Script → Except Error (α × Script)) :
    (s.edit location change).2.image = s.image := by
  cases hindex : s.eventIndex location with
  | error e => rw [edit_of_error hindex]
  | ok index => exact (edit_of_event hindex change).2.1

theorem image_editEach (s : Session) (edits : List (EditAt α)) :
    (s.editEach edits).2.image = s.image := by
  induction edits generalizing s with
  | nil => rfl
  | cons e edits ih => exact (ih _).trans (image_edit s e.location e.change)

theorem ascends_editEach {s : Session} (h : s.cache.Ascends) (edits : List (EditAt α)) :
    (s.editEach edits).2.cache.Ascends := by
  induction edits generalizing s with
  | nil => exact h
  | cons e edits ih => exact ih (ascends_edit h e.location e.change)

theorem edits_editEach (s : Session) (edits : List (EditAt α)) :
    (s.editEach edits).1.map Prod.fst = edits := by
  induction edits generalizing s with
  | nil => rfl
  | cons e edits ih => exact congrArg (e :: ·) (ih _)

theorem answer_of_error {s : Session} {edits : List (EditAt α)}
    {answered : EditAt α × Except Error α} (h : answered ∈ (s.editEach edits).1) {e : Error}
    (herror : s.eventIndex answered.1.location = .error e) : answered.2 = .error e := by
  induction edits generalizing s with
  | nil => cases h
  | cons first edits ih =>
    rw [editEach_cons] at h
    rcases List.mem_cons.mp h with rfl | h
    · exact congrArg Prod.fst (edit_of_error herror first.change)
    · refine ih h ?_
      rw [eventIndex_congr (image_edit s first.location first.change)]
      exact herror

/-- **The edits of an event are answered as if there were no others**, and leave the same script. -/
theorem answersOf_editEach (s : Session) (index : Nat) (edits : List (EditAt α)) :
    (answersOf s.image index (s.editEach edits).1, (s.editEach edits).2.cache.get? index) =
      editLoadedEach s.image index (s.cache.get? index) (changesOf s.image index edits) := by
  induction edits generalizing s with
  | nil => rfl
  | cons e edits ih =>
    have hrest := ih (s.edit e.location e.change).2
    rw [image_edit] at hrest
    unfold answersOf changesOf at hrest ⊢
    by_cases hevent : event? s.image e.location = some index
    · obtain ⟨hanswer, _, hget⟩ := edit_of_event (event?_eq_some.mp hevent) e.change
      rw [hget, if_pos rfl] at hrest
      simp only [editEach_cons, List.filter_cons, hevent, decide_true, if_true, List.map_cons,
        editLoadedEach, ← hrest, ← hanswer]
    · have hkept : (s.edit e.location e.change).2.cache.get? index = s.cache.get? index := by
        cases hindex : s.eventIndex e.location with
        | error err => rw [edit_of_error hindex]
        | ok i =>
          have hne : index ≠ i := fun hi => hevent (event?_eq_some.mpr (hi ▸ hindex))
          rw [(edit_of_event hindex e.change).2.2, if_neg hne]
      rw [hkept] at hrest
      simpa only [editEach_cons, List.filter_cons, hevent, decide_false, if_false,
        Bool.false_eq_true] using hrest

/-! ## two orders -/

/-- **Only the order of the edits of one event matters.**  Where two runs of edits on an image have
the same edits of each event, each edit has the same answer in both, and what is committed is the
same: the count or the failure, the image with its free map, and the scripts. -/
theorem commit_of_interleaved {image : Image} {edits edits' : List (EditAt α)}
    (h : ∀ index, changesOf image index edits = changesOf image index edits') :
    let run := (ofImage image).editEach edits
    let run' := (ofImage image).editEach edits'
    run.1.map Prod.fst = edits ∧ run'.1.map Prod.fst = edits' ∧
    (∀ index, answersOf image index run.1 = answersOf image index run'.1) ∧
    (∀ answered ∈ run.1 ++ run'.1, ∀ e,
      (ofImage image).eventIndex answered.1.location = .error e → answered.2 = .error e) ∧
    run.2.commit = run'.2.commit := by
  intro run run'
  have hsame : ∀ index, (answersOf image index run.1, run.2.cache.get? index) =
      (answersOf image index run'.1, run'.2.cache.get? index) := by
    intro index
    have hfirst := answersOf_editEach (ofImage image) index edits
    have hsecond := answersOf_editEach (ofImage image) index edits'
    exact hfirst.trans ((congrArg _ (h index)).trans hsecond.symm)
  have hempty : (ofImage image).cache.Ascends := .nil
  have hsession : run.2 = run'.2 :=
    eq_of_found (ascends_editEach hempty edits) (ascends_editEach hempty edits')
      ((image_editEach ..).trans (image_editEach ..).symm)
      fun index => congrArg Prod.snd (hsame index)
  refine ⟨edits_editEach .., edits_editEach .., fun index => congrArg Prod.fst (hsame index), ?_,
    congrArg commit hsession⟩
  intro answered hanswered e herror
  rcases List.mem_append.mp hanswered with hanswered | hanswered
  · exact answer_of_error hanswered herror
  · exact answer_of_error hanswered herror

end

/-- strings are added to the scripts of two events, and one is asked of a place that has no event -/
theorem commit_of_interleaved_strings :
    let layout : Layout := ⟨0x1000, 0, 0, 4, 2, 0, 2, 8, 2, []⟩
    let script : Bytes :=
      [10, 0, 8, 1, 32, 0, 2, 0xD8, 0xB8, 80, 0, 0, 0x43, 19, 0, 0, 0xBB, 0, 0, 64]
    let data : Bytes := [0, 0, 0, 0, 1, 0, 0, 0, 16, 0, 0, 36, 0, 0, 0, 0] ++ script ++ script ++
      List.replicate 24 0 ++ [82, 0, 0x41, 0] ++ List.replicate 172 0
    let space : FreeMap :=
      ⟨256, 0x1000, false, [128], by decide, by decide, by decide, by decide⟩
    let image : Image := ⟨data, space, layout⟩
    let first : EditAt Nat := ⟨0, fun s => s.addString [0x42]⟩
    let second : EditAt Nat := ⟨0, fun s => s.addString [0x43]⟩
    let other : EditAt Nat := ⟨1, fun s => s.addString [0x44]⟩
    let stray : EditAt Nat := ⟨2, fun s => s.addString [0x45]⟩
    let edits := [first, other, stray, second]
    let edits' := [stray, first, second, other]
    (∀ index, changesOf image index edits = changesOf image index edits') ∧
    (answersOf image 0 ((ofImage image).editEach edits).1).map Except.toOption =
      [some 1, some 2] ∧
    answersOf image 0 ((ofImage image).editEach edits).1 =
      answersOf image 0 ((ofImage image).editEach edits').1 ∧
    ((ofImage image).editEach edits).2.commit.1 = .ok 2 ∧
    ((ofImage image).editEach edits).2.commit = ((ofImage image).editEach edits').2.commit := by
  intro layout script data space image first second other stray edits edits'
  have hfirst : event? image first.location = some 0 := by decide +kernel
  have hsecond : event? image second.location = some 0 := by decide +kernel
  have hother : event? image other.location = some 1 := by decide +kernel
  have hstray : event? image stray.location = none := by decide +kernel
  have h : ∀ index, changesOf image index edits = changesOf image index edits' := by
    intro index
    by_cases h0 : index = 0
    · simp [changesOf, edits, edits', hfirst, hsecond, hother, hstray, h0]
    · have hne : 0 ≠ index := fun hzero => h0 hzero.symm
      simp [changesOf, edits, edits', List.filter_cons, hfirst, hsecond, hother, hstray, hne]
  obtain ⟨_, _, hanswers, _, hcommit⟩ := commit_of_interleaved h
  have hdone : ((ofImage image).editEach edits).2.commit.1 = .ok 2 :=
    toOption_eq_some.mp (by decide +kernel)
  exact ⟨h, by decide +kernel, hanswers 0, hdone, hcommit⟩

end Session

end Cartridge
