import Cartridge.Proofs.Script.Extent
import Cartridge.Proofs.Session.Storage
import Cartridge.Proofs.Session.Store
import Mathlib.Logic.Relation

/-!
# Runs of a session

* `Session.Step`, `Session.after`   what is asked of a session, and the session that a run of it
                             leaves, also when some of it fails;
* `Session.Handles`          a script is loaded, or a loaded one is edited;
* `Session.Advances`         or one is written back: steps are made of nothing else
                             (`Session.advances_after`);
* `Session.Loaded`           the scripts of a session, which stay with it (`Session.Loaded.mono`).
-/

namespace Cartridge

namespace Cache

theorem get?_insert (index : Nat) (entry : CachedScript) (cache : Cache) (i : Nat) :
    get? (insert index entry cache) i = if i = index then some entry else get? cache i := by
  by_cases hi : i = index
  · rw [if_pos hi, hi]
    exact get?_insert_self ..
  · have hne : (i == index) = false := beq_false_of_ne hi
    rw [if_neg hi]
    induction cache with
    | nil => rw [insert, get?, List.lookup_cons, hne, get?]
    | cons old rest ih =>
      obtain ⟨j, old⟩ := old
      rw [insert]
      split
      · rw [get?, List.lookup_cons, hne, get?]
      split
      · rename_i heq
        rw [get?, List.lookup_cons, hne, get?, List.lookup_cons, ← heq, hne]
      · rw [get?, List.lookup_cons, get?, List.lookup_cons]
        cases i == j with
        | true => rfl
        | false => exact ih

/-- what is found behind an insertion is the new script, or has been there -/
theorem found_of_insert {index i : Nat} {entry found : CachedScript} {cache : Cache}
    (h : get? (insert index entry cache) i = some found) :
    i = index ∧ found = entry ∨ i ≠ index ∧ get? cache i = some found := by
  rw [get?_insert] at h
  by_cases hi : i = index
  · rw [if_pos hi] at h
    exact .inl ⟨hi, (Option.some.inj h).symm⟩
  · rw [if_neg hi] at h
    exact .inr ⟨hi, h⟩

end Cache

/-- an edited script is recorded where it was -/
theorem CachedScript.storage_apply {entry : CachedScript} {change : ScriptEdit} {script : Script}
    (happly : change.apply entry.script = .ok script) :
    storage { entry with script } = entry.storage := by
  rw [storage, ScriptEdit.extent_apply happly, storage]

namespace Session

open Relation

inductive Step where
  | get (location : Nat)
  | edit (location : Nat) (change : ScriptEdit)
  | writeBack (location : Nat)
  | commit
  deriving DecidableEq, Repr

/-- the session behind a step, its answer aside -/
def Step.run (s : Session) : Step → Session
  | .get location =>
    match s.get location with
    | .error _ => s
    | .ok (_, s') => s'
  | .edit location change =>
    (s.edit location fun t => (change.apply t).map fun t' => ((), t')).2
  | .writeBack location => (s.writeBack location).2
  | .commit => s.commit.2

def after (s : Session) : List Step → Session
  | [] => s
  | step :: steps => (step.run s).after steps

theorem after_append (s : Session) (before rest : List Step) :
    s.after (before ++ rest) = (s.after before).after rest := by
  induction before generalizing s with
  | nil => rfl
  | cons step before ih => exact ih (step.run s)

/-- whether the step writes scripts back -/
def Step.writes : Step → Bool
  | .get _ | .edit _ _ => false
  | .writeBack _ | .commit => true

/-! ## what steps are made of -/

/-- a script is loaded, or one that is loaded is edited -/
inductive Handles : Session → Session → Prop
  | load {s : Session} {index : Nat} {entry : CachedScript} (hnone : s.cache.get? index = none)
    (hload : load s.image index = .ok entry) :
    Handles s { s with cache := s.cache.insert index entry }
  | edit {s : Session} {index : Nat} {entry : CachedScript}
    (hentry : s.cache.get? index = some entry) (change : ScriptEdit) {script : Script}
    (happly : change.apply entry.script = .ok script) :
    Handles s { s with cache := s.cache.insert index { entry with script } }

inductive Advances : Session → Session → Prop
  | handle {s s' : Session} (h : Handles s s') : Advances s s'
  | writeBack (s : Session) (index : Nat) : Advances s (s.writeBackEvent index).2

theorem handles_fetch {s s' : Session} {location index : Nat} {entry : CachedScript}
    (h : s.fetch location = .ok (index, entry, s')) :
    ReflTransGen Handles s s' ∧ s'.cache.get? index = some entry := by
  rcases fetch_eq_ok h with ⟨hfound, rfl⟩ | ⟨hnone, hload, rfl⟩
  · exact ⟨.refl, hfound⟩
  · exact ⟨.single (.load hnone hload), Cache.get?_insert_self ..⟩

theorem handles_get (s : Session) (location : Nat) :
    ReflTransGen Handles s ((Step.get location).run s) := by
  simp only [Step.run]
  cases hget : s.get location with
  | error e => exact .refl
  | ok found =>
    obtain ⟨⟨index, entry, s'⟩, hfetch, h⟩ := bind_eq_ok.mp hget
    cases h
    exact (handles_fetch hfetch).1

theorem handles_edit (s : Session) (location : Nat) (change : ScriptEdit) :
    ReflTransGen Handles s ((Step.edit location change).run s) := by
  simp only [Step.run, Session.edit]
  cases hfetch : s.fetch location with
  | error e => exact .refl
  | ok found =>
    obtain ⟨index, entry, s'⟩ := found
    obtain ⟨hsteps, hentry⟩ := handles_fetch hfetch
    cases happly : change.apply entry.script with
    | error e => simpa only [happly, Except.map] using hsteps
    | ok script => simpa only [happly, Except.map] using hsteps.tail (.edit hentry change happly)

/-- steps that write nothing back load and edit scripts -/
theorem handles_after (s : Session) {steps : List Step}
    (h : ∀ step ∈ steps, step.writes = false) : ReflTransGen Handles s (s.after steps) := by
  induction steps generalizing s with
  | nil => exact .refl
  | cons step steps ih =>
    obtain ⟨hstep, hrest⟩ := List.forall_mem_cons.mp h
    have hfirst : ReflTransGen Handles s (step.run s) := by
      cases step with
      | get location => exact handles_get s location
      | edit location change => exact handles_edit s location change
      | writeBack location => cases hstep
      | commit => cases hstep
    exact hfirst.trans (ih _ hrest)

theorem advances_writeBackEach (s : Session) (indices : List Nat) :
    ReflTransGen Advances s (s.writeBackEach indices).2 := by
  induction indices generalizing s with
  | nil => exact .refl
  | cons index rest ih =>
    have hfirst := Advances.writeBack s index
    rw [writeBackEach]
    cases hwrite : s.writeBackEvent index with
    | mk result s' =>
      rw [hwrite] at hfirst
      cases result with
      | error e => exact .single hfirst
      | ok done => exact .head hfirst (ih s')

theorem advances_commit (s : Session) : ReflTransGen Advances s s.commit.2 := by
  have hsteps := advances_writeBackEach s s.cache.modified
  unfold commit
  cases hwrite : s.writeBackEach s.cache.modified with
  | mk result s' =>
    rw [hwrite] at hsteps
    cases result with
    | error e => exact hsteps
    | ok done => exact hsteps

theorem advances_run (s : Session) (step : Step) : ReflTransGen Advances s (step.run s) := by
  cases step with
  | get location => exact ReflTransGen.mono (fun _ _ h => .handle h) _ _ (handles_get s location)
  | edit location change =>
    exact ReflTransGen.mono (fun _ _ h => .handle h) _ _ (handles_edit s location change)
  | writeBack location =>
    simp only [Step.run, Session.writeBack]
    cases s.eventIndex location with
    | error e => exact .refl
    | ok index => exact .single (.writeBack s index)
  | commit => exact advances_commit s

/-- **A run is made of scripts that are loaded, edited and written back.** -/
theorem advances_after (s : Session) (steps : List Step) :
    ReflTransGen Advances s (s.after steps) := by
  induction steps generalizing s with
  | nil => exact .refl
  | cons step steps ih => exact (advances_run s step).trans (ih _)

/-! ## loaded scripts -/

def Loaded (s : Session) (index : Nat) : Prop := ∃ entry, s.cache.get? index = some entry

theorem loaded_insert {s : Session} {image : Image} {index i : Nat} {entry : CachedScript}
    (h : s.Loaded i) : Loaded ⟨image, s.cache.insert index entry⟩ i := by
  unfold Loaded
  rw [Cache.get?_insert]
  by_cases hi : i = index
  · rw [if_pos hi]
    exact ⟨entry, rfl⟩
  · rw [if_neg hi]
    exact h

theorem Loaded.writeBackEvent {s : Session} {i : Nat} (h : s.Loaded i) (index : Nat) :
    (s.writeBackEvent index).2.Loaded i := by
  cases hresult : s.writeBackEvent index with
  | mk result s' =>
    cases result with
    | error e =>
      obtain ⟨_, _, hcache⟩ := cached_of_writeBackEvent hresult
      show ∃ entry, s'.cache.get? i = some entry
      rw [hcache]
      exact h
    | ok done =>
      rcases stored_of_writeBackEvent hresult with rfl | ⟨_, _, _, _, _, _, _, rfl⟩
      · exact h
      · exact loaded_insert h

theorem Loaded.advance {s s' : Session} {i : Nat} (h : s.Loaded i) (hstep : Advances s s') :
    s'.Loaded i := by
  cases hstep with
  | handle hstep =>
    cases hstep with
    | load hnone hload => exact loaded_insert h
    | edit hentry change happly => exact loaded_insert h
  | writeBack index => exact h.writeBackEvent index

/-- a script that is loaded stays loaded -/
theorem Loaded.mono {s s' : Session} {i : Nat} (h : s.Loaded i)
    (hsteps : ReflTransGen Advances s s') : s'.Loaded i := by
  induction hsteps with
  | refl => exact h
  | tail _ hstep ih => exact ih.advance hstep

end Session

end Cartridge
