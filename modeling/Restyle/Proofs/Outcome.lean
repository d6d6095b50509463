import Restyle.Fault

/-!
Contract: what is known of computations that may stop at a fault.

Owns: the inversion of a sequence and of a map that succeeded; `Within`, an
outcome that is a result with a property or one of some faults; `Judged`, an
outcome that is a result with a property or a problem of the module.
-/

namespace Restyle

/-- Both halves of a sequence that succeeds succeed. -/
theorem exists_of_bind_ok
    {α β : Type}
    {first : Except Fault α}
    {next : α → Except Fault β}
    {result : β}
    (succeeds : first >>= next = .ok result) :
    ∃ value, first = .ok value ∧ next value = .ok result := by
  cases first with
  | error fault => simp [bind, Except.bind] at succeeds
  | ok value => exact ⟨value, rfl, succeeds⟩

/-- What is mapped to a result succeeds. -/
theorem exists_of_map_ok
    {α β : Type}
    {first : Except Fault α}
    {transform : α → β}
    {result : β}
    (succeeds : first.map transform = .ok result) :
    ∃ value, first = .ok value ∧ transform value = result := by
  cases first with
  | error fault => simp [Except.map] at succeeds
  | ok value => exact ⟨value, rfl, by simpa [Except.map] using succeeds⟩

theorem ok_of_toOption
    {α : Type}
    {outcome : Except Fault α}
    {value : α}
    (isValue : outcome.toOption = some value) :
    outcome = .ok value := by
  cases outcome with
  | error fault => simp [Except.toOption] at isValue
  | ok own => rw [Option.some.inj isValue]

/-! ## Outcomes with some faults -/

/-- An outcome is a result with a property, or it is one of some faults. -/
inductive Within {α : Type} (faults : Fault → Prop) (property : α → Prop) :
    Except Fault α → Prop where
  | ok {value : α} (holds : property value) : Within faults property (.ok value)
  | error {fault : Fault} (isOne : faults fault) : Within faults property (.error fault)

namespace Within

variable {α β : Type} {faults more : Fault → Prop} {property : α → Prop}

theorem of_ok {value : α} (within : Within faults property (.ok value)) : property value := by
  cases within with
  | ok holds => exact holds

theorem of_error
    {fault : Fault}
    (within : Within faults property (.error fault : Except Fault α)) :
    faults fault := by
  cases within with
  | error isOne => exact isOne

theorem mono
    {outcome : Except Fault α}
    (within : Within faults property outcome)
    (implies : ∀ fault, faults fault → more fault) :
    Within more property outcome := by
  cases within with
  | ok holds => exact .ok holds
  | error isOne => exact .error (implies _ isOne)

theorem bind
    {further : β → Prop}
    {first : Except Fault α}
    {next : α → Except Fault β}
    (within : Within faults property first)
    (later : ∀ value, property value → Within faults further (next value)) :
    Within faults further (first >>= next) := by
  cases within with
  | ok holds => exact later _ holds
  | error isOne => exact .error isOne

theorem map
    {further : β → Prop}
    {first : Except Fault α}
    {transform : α → β}
    (within : Within faults property first)
    (later : ∀ value, property value → further (transform value)) :
    Within faults further (first.map transform) := by
  cases within with
  | ok holds => exact .ok (later _ holds)
  | error isOne => exact .error isOne

end Within

/-! ## Outcomes that are judged -/

/-- An outcome is a result with a property, or a problem; it is none of the other
faults. -/
inductive Judged {α : Type} (property : α → Prop) : Except Fault α → Prop where
  | ok {value : α} (holds : property value) : Judged property (.ok value)
  | problem (problem : Problem) (offset : Nat) : Judged property (.error (.problem problem offset))

theorem Judged.bind
    {α β : Type}
    {property : α → Prop}
    {further : β → Prop}
    {first : Except Fault α}
    {next : α → Except Fault β}
    (judged : Judged property first)
    (later : ∀ value, property value → Judged further (next value)) :
    Judged further (first >>= next) := by
  cases judged with
  | ok holds => exact later _ holds
  | problem problem offset => exact .problem problem offset

/-- An outcome is judged if its faults are problems. -/
theorem Within.judged
    {α : Type}
    {faults : Fault → Prop}
    {property : α → Prop}
    {outcome : Except Fault α}
    (within : Within faults property outcome)
    (areProblems : ∀ fault, faults fault → ∃ problem offset, fault = .problem problem offset) :
    Judged property outcome := by
  cases within with
  | ok holds => exact .ok holds
  | error isOne =>
    obtain ⟨problem, offset, rfl⟩ := areProblems _ isOne
    exact .problem problem offset

end Restyle
