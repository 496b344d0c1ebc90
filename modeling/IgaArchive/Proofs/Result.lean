import IgaArchive.Bytes

/-!
Results that may be failures. A successful result of several steps comes from successful steps, and
naming a failure differently leaves successes alone.
-/

namespace IgaArchive.Result

variable {ε ε' α β : Type}

theorem bind_eq_ok {result : Except ε α} {next : α → Except ε β} {value : β}
    (finished : result.bind next = .ok value) :
    ∃ middle, result = .ok middle ∧ next middle = .ok value := by
  cases result with
  | error error => cases finished
  | ok middle => exact ⟨middle, rfl, finished⟩

theorem bind_eq_error {result : Except ε α} {next : α → Except ε β} {error : ε}
    (failed : result.bind next = .error error) :
    result = .error error ∨ ∃ middle, result = .ok middle ∧ next middle = .error error := by
  cases result with
  | error other =>
      cases failed
      exact Or.inl rfl
  | ok middle => exact Or.inr ⟨middle, rfl, failed⟩

@[simp] theorem mapError_ok (rename : ε → ε') (value : α) :
    (Except.ok value).mapError rename = .ok value := rfl

@[simp] theorem mapError_error (rename : ε → ε') (error : ε) :
    (Except.error error : Except ε α).mapError rename = .error (rename error) := rfl

theorem mapError_eq_ok {rename : ε → ε'} {result : Except ε α} {value : α} :
    result.mapError rename = .ok value ↔ result = .ok value := by
  cases result with
  | error error => exact ⟨nofun, nofun⟩
  | ok found => simp

theorem mapError_eq_error {rename : ε → ε'} {result : Except ε α} {error : ε'} :
    result.mapError rename = .error error ↔ ∃ cause, error = rename cause ∧ result = .error cause := by
  cases result with
  | error cause =>
      simp only [mapError_error, Except.error.injEq]
      constructor
      · rintro rfl
        exact ⟨cause, rfl, rfl⟩
      · rintro ⟨_, rfl, rfl⟩
        rfl
  | ok found => simp

theorem eq_ok_of_toOption {result : Except ε α} {value : α} (found : result.toOption = some value) :
    result = .ok value := by
  cases result with
  | error error => cases found
  | ok _ => exact congrArg Except.ok (Option.some.inj found)

def error? : Except ε α → Option ε
  | .error error => some error
  | .ok _ => none

theorem eq_error_of_error? {result : Except ε α} {error : ε} (found : error? result = some error) :
    result = .error error := by
  cases result with
  | error _ => exact congrArg Except.error (Option.some.inj found)
  | ok value => cases found

theorem mapM_of_ok {step : α → Except ε β} {image : α → β} {items : List α}
    (each : ∀ item ∈ items, step item = .ok (image item)) :
    items.mapM step = .ok (items.map image) := by
  induction items with
  | nil => rfl
  | cons item items ih =>
      have rest := ih fun other member => each other (List.mem_cons_of_mem _ member)
      rw [List.mapM_cons, each item (by simp), rest]
      rfl

end IgaArchive.Result
