import PakIndex.Error

/-!
# Steps that may fail

* `bind_eq_ok_iff`, `bind_eq_error_iff`: how two steps succeed and fail.
* `map_eq_ok_iff`, `map_eq_error_iff`: how a step succeeds and fails whose result is changed;
  `map_map`: twice, one after the other.
* `exists_of_isOk`, `toOption_eq_some_iff`: steps that are known to succeed.
* `forM_eq_ok_iff`: how steps along a list succeed.
* `guard_eq_ok_iff`, `guard_eq_error_iff`: how a step behind a check succeeds and fails.
-/

namespace PakIndex

variable {α β : Type} {x : Except Error α} {f : α → Except Error β} {b : β} {e : Error}

theorem bind_eq_ok_iff : (x >>= f) = .ok b ↔ ∃ a, x = .ok a ∧ f a = .ok b := by
  cases x with
  | error e => exact ⟨nofun, nofun⟩
  | ok a => exact ⟨fun h => ⟨a, rfl, h⟩, by rintro ⟨a, ⟨⟩, h⟩; exact h⟩

theorem bind_eq_error_iff :
    (x >>= f) = .error e ↔ x = .error e ∨ ∃ a, x = .ok a ∧ f a = .error e := by
  cases x with
  | error e' =>
    constructor
    · intro h
      cases h
      exact .inl rfl
    · rintro (h | ⟨a, h, -⟩)
      · cases h
        rfl
      · cases h
  | ok a =>
    refine ⟨fun h => .inr ⟨a, rfl, h⟩, ?_⟩
    rintro (h | ⟨a, ⟨⟩, h⟩)
    · cases h
    · exact h

theorem map_eq_ok_iff {g : α → β} : x.map g = .ok b ↔ ∃ a, x = .ok a ∧ g a = b := by
  cases x with
  | error e => exact ⟨nofun, nofun⟩
  | ok a => simp only [Except.map, Except.ok.injEq, exists_eq_left']

theorem map_eq_error_iff {g : α → β} : x.map g = .error e ↔ x = .error e := by
  cases x with
  | error e' => simp only [Except.map, Except.error.injEq]
  | ok a => simp only [Except.map, reduceCtorEq]

theorem map_map {γ : Type} (x : Except Error α) (g : α → β) (h : β → γ) :
    (x.map g).map h = x.map (h ∘ g) := by
  cases x <;> rfl

theorem exists_of_isOk (h : x.isOk = true) : ∃ a, x = .ok a := by
  cases x with
  | error e => cases h
  | ok a => exact ⟨a, rfl⟩

theorem toOption_eq_some_iff {a : α} : x.toOption = some a ↔ x = .ok a := by
  cases x <;> simp [Except.toOption]

theorem forM_eq_ok_iff {γ : Type} {xs : List γ} {step : γ → Except Error Unit} :
    forM xs step = .ok () ↔ ∀ x ∈ xs, step x = .ok () := by
  induction xs with
  | nil => exact ⟨fun _ => nofun, fun _ => rfl⟩
  | cons x xs ih =>
    rw [List.forM_cons, bind_eq_ok_iff, List.forall_mem_cons, ← ih]
    exact ⟨fun ⟨_, hx, hxs⟩ => ⟨hx, hxs⟩, fun ⟨hx, hxs⟩ => ⟨(), hx, hxs⟩⟩

section Guard

variable {c : Prop} [Decidable c] {y : Except Error β} {g : PUnit → Except Error β}

theorem guard_eq_ok_iff :
    (if c then throw e >>= g else y) = .ok b ↔ ¬ c ∧ y = .ok b := by
  by_cases hc : c
  · rw [if_pos hc]
    exact ⟨nofun, fun h => absurd hc h.1⟩
  · rw [if_neg hc]
    exact ⟨fun h => ⟨hc, h⟩, fun h => h.2⟩

theorem guard_eq_error_iff {e' : Error} :
    (if c then throw e' >>= g else y) = .error e ↔ c ∧ e' = e ∨ ¬ c ∧ y = .error e := by
  by_cases hc : c
  · rw [if_pos hc]
    constructor
    · intro h
      cases h
      exact .inl ⟨hc, rfl⟩
    · rintro (⟨-, rfl⟩ | ⟨h, -⟩)
      · rfl
      · exact absurd hc h
  · rw [if_neg hc]
    constructor
    · intro h
      exact .inr ⟨hc, h⟩
    · rintro (⟨h, -⟩ | ⟨-, h⟩)
      · exact absurd h hc
      · exact h

end Guard

end PakIndex
