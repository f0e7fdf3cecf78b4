import Cartridge.Script.Basic

/-!
# Sessions

A session is an image and the scripts loaded from it.  A script is loaded when it is first asked
for; locations with one event index share one script.

* `Cache`                    loaded scripts by event index, ascending;
* `Session.get`              the script of a location, loaded if need be;
* `Session.edit`             an edit of that script, which stays loaded when the edit fails;
* `Session.isLoaded`         whether a location's script is loaded.
-/

namespace Cartridge

structure CachedScript where
  script : Script
  /-- the range that holds the compressed script -/
  block : Range
  deriving DecidableEq, Repr

/-! ## caches -/

abbrev Cache := List (Nat × CachedScript)

namespace Cache

def get? (cache : Cache) (index : Nat) : Option CachedScript := cache.lookup index

/-- adds a script, or replaces the one of the same index -/
def insert (index : Nat) (entry : CachedScript) : Cache → Cache
  | [] => [(index, entry)]
  | (i, old) :: rest =>
    if index < i then (index, entry) :: (i, old) :: rest
    else if index = i then (index, entry) :: rest
    else (i, old) :: insert index entry rest

/-- the indices of the edited scripts -/
def modified (cache : Cache) : List Nat :=
  (cache.filter fun (_, entry) => entry.script.modified).map Prod.fst

theorem get?_insert_self (index : Nat) (entry : CachedScript) (cache : Cache) :
    get? (insert index entry cache) index = some entry := by
  induction cache with
  | nil => exact List.lookup_cons_self
  | cons old rest ih =>
    obtain ⟨i, old⟩ := old
    rw [insert]
    split
    · exact List.lookup_cons_self
    split
    · exact List.lookup_cons_self
    · rename_i hne
      have hb : (index == i) = false := beq_false_of_ne hne
      rw [get?, List.lookup_cons, hb]
      exact ih

end Cache

/-! ## sessions -/

structure Session where
  image : Image
  cache : Cache
  deriving DecidableEq, Repr

namespace Session

def ofImage (image : Image) : Session := ⟨image, []⟩

def eventIndex (s : Session) (location : Nat) : Except Error Nat :=
  return (← s.image.locationRecord location).eventIndex

def isLoaded (s : Session) (location : Nat) : Except Error Bool :=
  return (s.cache.get? (← s.eventIndex location)).isSome

/-- the script of an event as the image has it -/
def load (image : Image) (index : Nat) : Except Error CachedScript := do
  let offset ← image.toOffset (← image.eventPointer index)
  let length ← Block.blockLength image.data offset
  return ⟨← Script.load image offset, ⟨offset, offset + length⟩⟩

/-- the session with the script of a location loaded, and the entry of that script -/
def fetch (s : Session) (location : Nat) : Except Error (Nat × CachedScript × Session) := do
  let index ← s.eventIndex location
  match s.cache.get? index with
  | some entry => return (index, entry, s)
  | none =>
    let entry ← load s.image index
    return (index, entry, { s with cache := s.cache.insert index entry })

def get (s : Session) (location : Nat) : Except Error (Script × Session) :=
  return (fun (_, entry, s) => (entry.script, s)) (← s.fetch location)

def edit {α : Type} (s : Session) (location : Nat)
    (change : Script → Except Error (α × Script)) : Except Error α × Session :=
  match s.fetch location with
  | .error e => (.error e, s)
  | .ok (index, entry, s) =>
    match change entry.script with
    | .error e => (.error e, s)
    | .ok (a, script) =>
      (.ok a, { s with cache := s.cache.insert index { entry with script } })

end Session

end Cartridge
