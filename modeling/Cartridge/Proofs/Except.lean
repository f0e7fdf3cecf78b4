import Mathlib.Data.List.Forall2

/-!
# Steps that may fail

What is known of the parts when a sequence of steps succeeds.

* `bind_eq_ok`, `map_eq_ok`, `mapError_eq_ok`, `toOption_eq_some`   one step, and what is done with
                 its answer;
* `cause?`       why a step has failed;
* `unless_eq_ok`, `unless_throw_eq_ok`   a refusal that did not take place;
* `mapM_eq_ok`   a step for each member of a list;
* `bind_eq_error`, `map_eq_error`, `mapError_eq_error`, `unless_eq_error`, `mapM_eq_error`   which
                 step a failure comes from;
* `mapError_bind`, `mapError_map`, `mapM_mapError`, `mapError_mapM_congr`   steps that fail with
                 other causes.
-/

namespace Cartridge

section
variable {ε δ α β : Type}

theorem bind_eq_ok {x : Except ε α} {f : α → Except ε β} {b : β} :
    (x >>= f) = .ok b ↔ ∃ a, x = .ok a ∧ f a = .ok b := by
  cases x with
  | error e =>
    constructor
    · intro h
      cases h
    · rintro ⟨a, h, _⟩
      cases h
  | ok a =>
    constructor
    · intro h
      exact ⟨a, rfl, h⟩
    · rintro ⟨a', h, hf⟩
      cases h
      exact hf

theorem map_eq_ok {x : Except ε α} {f : α → β} {b : β} :
    x.map f = .ok b ↔ ∃ a, x = .ok a ∧ f a = b := by
  cases x with
  | error e => simp [Except.map]
  | ok a => simp [Except.map]

theorem mapError_eq_ok {x : Except ε α} {f : ε → δ} {a : α} :
    x.mapError f = .ok a ↔ x = .ok a := by
  cases x with
  | error e => simp [Except.mapError]
  | ok a => simp [Except.mapError]

theorem toOption_eq_some {x : Except ε α} {a : α} : x.toOption = some a ↔ x = .ok a := by
  cases x with
  | error e => simp [Except.toOption]
  | ok a => simp [Except.toOption]

/-- the cause of a failure -/
def cause? : Except ε α → Option ε
  | .error e => some e
  | .ok _ => none

theorem cause?_eq_some {x : Except ε α} {e : ε} : cause? x = some e ↔ x = .error e := by
  cases x with
  | error e' => simp [cause?]
  | ok a => simp [cause?]

/-- a check that refuses, in front of the steps `x` -/
theorem unless_eq_ok {p : Prop} [Decidable p] {e : ε} {x : Except ε α} {a : α} :
    (if p then .error e else x) = .ok a ↔ ¬ p ∧ x = .ok a := by
  by_cases hp : p
  · simp [hp]
  · simp [hp]

/-- the same check when it throws; `f` are the steps that the throw leaves out -/
theorem unless_throw_eq_ok {p : Prop} [Decidable p] {e : ε} {f : α → Except ε β}
    {x : Except ε β} {b : β} :
    (if p then (throw e : Except ε α) >>= f else x) = .ok b ↔ ¬ p ∧ x = .ok b :=
  unless_eq_ok

/-- a step for each member succeeds just when each step does -/
theorem mapM_eq_ok {f : α → Except ε β} {xs : List α} {ys : List β} :
    xs.mapM f = .ok ys ↔ List.Forall₂ (fun x y => f x = .ok y) xs ys := by
  induction xs generalizing ys with
  | nil =>
    rw [List.mapM_nil, List.forall₂_nil_left_iff]
    show Except.ok [] = Except.ok ys ↔ ys = []
    rw [Except.ok.injEq, eq_comm]
  | cons x xs ih =>
    rw [List.mapM_cons, bind_eq_ok]
    constructor
    · rintro ⟨y, hy, h⟩
      obtain ⟨rest, hrest, h⟩ := bind_eq_ok.mp h
      cases h
      exact .cons hy (ih.mp hrest)
    · intro h
      cases h with
      | cons hy hrest => exact ⟨_, hy, bind_eq_ok.mpr ⟨_, ih.mpr hrest, rfl⟩⟩

/-! ## failures -/

theorem bind_eq_error {x : Except ε α} {f : α → Except ε β} {e : ε} :
    (x >>= f) = .error e ↔ x = .error e ∨ ∃ a, x = .ok a ∧ f a = .error e := by
  cases x with
  | error e' =>
    constructor
    · intro h
      cases h
      exact .inl rfl
    · rintro (h | ⟨a, h, _⟩)
      · cases h
        rfl
      · cases h
  | ok a =>
    constructor
    · intro h
      exact .inr ⟨a, rfl, h⟩
    · rintro (h | ⟨a', h, hf⟩)
      · cases h
      · cases h
        exact hf

theorem map_eq_error {x : Except ε α} {f : α → β} {e : ε} :
    x.map f = .error e ↔ x = .error e := by
  cases x with
  | error e' => simp [Except.map]
  | ok a => simp [Except.map]

theorem mapError_eq_error {x : Except ε α} {f : ε → δ} {d : δ} :
    x.mapError f = .error d ↔ ∃ e, x = .error e ∧ f e = d := by
  cases x with
  | error e => simp [Except.mapError]
  | ok a => simp [Except.mapError]

theorem unless_eq_error {p : Prop} [Decidable p] {e e' : ε} {x : Except ε α} :
    (if p then .error e else x) = .error e' ↔ p ∧ e = e' ∨ ¬ p ∧ x = .error e' := by
  by_cases hp : p
  · simp [hp]
  · simp [hp]

theorem unless_throw_eq_error {p : Prop} [Decidable p] {e e' : ε} {f : α → Except ε β}
    {x : Except ε β} :
    (if p then (throw e : Except ε α) >>= f else x) = .error e' ↔
      p ∧ e = e' ∨ ¬ p ∧ x = .error e' :=
  unless_eq_error

theorem mapM_eq_error {f : α → Except ε β} {xs : List α} {e : ε} (h : xs.mapM f = .error e) :
    ∃ x ∈ xs, f x = .error e := by
  induction xs with
  | nil => cases h
  | cons x xs ih =>
    rw [List.mapM_cons] at h
    rcases bind_eq_error.mp h with h | ⟨y, _, h⟩
    · exact ⟨x, List.mem_cons_self .., h⟩
    · rcases bind_eq_error.mp h with h | ⟨ys, _, h⟩
      · obtain ⟨x', hx', h⟩ := ih h
        exact ⟨x', List.mem_cons_of_mem _ hx', h⟩
      · cases h

/-! ## other causes -/

theorem mapError_bind (h : ε → δ) (x : Except ε α) (f : α → Except ε β) :
    (x >>= f).mapError h = x.mapError h >>= fun a => (f a).mapError h := by
  cases x with
  | error e => rfl
  | ok a => rfl

theorem mapError_map (h : ε → δ) (x : Except ε α) (f : α → β) :
    (x.map f).mapError h = (x.mapError h).map f := by
  cases x with
  | error e => rfl
  | ok a => rfl

/-- when each step fails with another cause, so does a step for each member of a list -/
theorem mapM_mapError {h : ε → δ} {f : α → Except ε β} {g : α → Except δ β} {xs : List α}
    (hstep : ∀ x ∈ xs, g x = (f x).mapError h) : xs.mapM g = (xs.mapM f).mapError h := by
  induction xs with
  | nil => rfl
  | cons x xs ih =>
    obtain ⟨hfirst, hrest⟩ := List.forall_mem_cons.mp hstep
    rw [List.mapM_cons, List.mapM_cons, hfirst, ih hrest]
    cases f x with
    | error e => rfl
    | ok y =>
      cases xs.mapM f with
      | error e => rfl
      | ok ys => rfl

/-- steps that agree up to their causes, member by member of two lists -/
theorem mapError_mapM_congr {γ : Type} {h : ε → δ} {f : α → Except ε β} {g : γ → Except ε β}
    {xs : List α} {ys : List γ}
    (hsteps : List.Forall₂ (fun x y => (f x).mapError h = (g y).mapError h) xs ys) :
    (xs.mapM f).mapError h = (ys.mapM g).mapError h := by
  induction hsteps with
  | nil => rfl
  | cons hstep _ ih =>
    rw [List.mapM_cons, List.mapM_cons, mapError_bind, mapError_bind, hstep]
    refine congrArg _ (funext fun b => ?_)
    rw [mapError_bind, mapError_bind, ih]

/-! ## related lists -/

theorem exists_of_mem_left {R : α → β → Prop} {xs : List α} {ys : List β}
    (h : List.Forall₂ R xs ys) {x : α} (hx : x ∈ xs) : ∃ y ∈ ys, R x y := by
  induction h with
  | nil => cases hx
  | cons hstep _ ih =>
    rcases List.mem_cons.mp hx with rfl | hx
    · exact ⟨_, List.mem_cons_self .., hstep⟩
    · obtain ⟨y, hy, hR⟩ := ih hx
      exact ⟨y, List.mem_cons_of_mem _ hy, hR⟩

theorem exists_of_mem_right {R : α → β → Prop} {xs : List α} {ys : List β}
    (h : List.Forall₂ R xs ys) {y : β} (hy : y ∈ ys) : ∃ x ∈ xs, R x y :=
  exists_of_mem_left h.flip hy

/-- members that are related by way of a third list -/
theorem forall₂_trans {γ : Type} {R : α → β → Prop} {S : β → γ → Prop} {T : α → γ → Prop}
    {xs : List α} {ys : List β} {zs : List γ} (hR : List.Forall₂ R xs ys)
    (hS : List.Forall₂ S ys zs) (h : ∀ x y z, R x y → S y z → T x z) : List.Forall₂ T xs zs := by
  induction hR generalizing zs with
  | nil =>
    cases hS
    exact .nil
  | cons hfirst _ ih =>
    cases hS with
    | cons hsecond hrest => exact .cons (h _ _ _ hfirst hsecond) (ih hrest)

/-- related members keep the order that their partners stand in -/
theorem pairwise_of_forall₂ {R : α → β → Prop} {S : α → α → Prop} {T : β → β → Prop}
    {xs : List α} {ys : List β} (h : List.Forall₂ R xs ys) (hxs : xs.Pairwise S)
    (hstep : ∀ x x' y y', S x x' → R x y → R x' y' → T y y') : ys.Pairwise T := by
  induction h with
  | nil => exact .nil
  | cons hfirst hrest ih =>
    obtain ⟨hhead, htail⟩ := List.pairwise_cons.mp hxs
    refine List.pairwise_cons.mpr ⟨?_, ih htail⟩
    intro y hy
    obtain ⟨x, hx, hR⟩ := exists_of_mem_right hrest hy
    exact hstep _ x _ y (hhead x hx) hfirst hR

end

end Cartridge
