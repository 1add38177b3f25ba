import Mathlib.Tactic.Common

/-!
# How calls end

A call that may fail ends with a value or with an error. `Ends` names the errors that are
possible and what holds of the value, so every other error is excluded. A loop that exhausts
its bound ends with an error too.
-/
namespace ImmixGc.Foundation

variable {ε α β : Type}

/-- The call returns a value as `post` says, or stops for one of the `allowed` reasons. -/
structure Ends (allowed : ε → Prop) (post : α → Prop) (result : Except ε α) : Prop where
  returns : ∀ value, result = .ok value → post value
  stops : ∀ stop, result = .error stop → allowed stop

namespace Ends
variable {allowed allowed' : ε → Prop} {post post' : α → Prop} {result : Except ε α}

theorem ok {value : α} (holds : post value) : Ends allowed post (.ok value) where
  returns _ same := Except.ok.inj same ▸ holds
  stops _ wrong := nomatch wrong

theorem error {stop : ε} (why : allowed stop) : Ends allowed post (.error stop) where
  returns _ wrong := nomatch wrong
  stops _ same := Except.error.inj same ▸ why

theorem cases (ends : Ends allowed post result) :
    (∃ value, result = .ok value ∧ post value) ∨ ∃ stop, result = .error stop ∧ allowed stop := by
  cases result with
  | ok value => exact Or.inl ⟨value, rfl, ends.returns value rfl⟩
  | error stop => exact Or.inr ⟨stop, rfl, ends.stops stop rfl⟩

theorem mono (ends : Ends allowed post result) (stops : ∀ stop, allowed stop → allowed' stop)
    (returns : ∀ value, result = .ok value → post value → post' value) :
    Ends allowed' post' result :=
  ⟨fun value ran => returns value ran (ends.returns value ran), fun stop ran =>
    stops stop (ends.stops stop ran)⟩

theorem widen (ends : Ends allowed post result) (stops : ∀ stop, allowed stop → allowed' stop) :
    Ends allowed' post result :=
  ends.mono stops fun _ _ holds => holds

theorem imp (ends : Ends allowed post result) (returns : ∀ value, post value → post' value) :
    Ends allowed post' result :=
  ends.mono (fun _ why => why) fun value _ => returns value

/-- The second call runs on what the first one returned. -/
theorem bind {next : α → Except ε β} {last : β → Prop} (first : Ends allowed post result)
    (second : ∀ value, result = .ok value → post value → Ends allowed last (next value)) :
    Ends allowed last (result >>= next) := by
  cases result with
  | ok value => exact second value rfl (first.returns value rfl)
  | error stop => exact error (first.stops stop rfl)

/-- A loop over a list ends as its steps do, from states that satisfy its invariant. -/
theorem foldlM {invariant : β → Prop} {step : β → α → Except ε β} (items : List α) {state : β}
    (start : invariant state)
    (each : ∀ item ∈ items, ∀ before, invariant before → Ends allowed invariant (step before item)) :
    Ends allowed invariant (items.foldlM step state) := by
  induction items generalizing state with
  | nil => exact ok start
  | cons item rest ih =>
    rw [List.foldlM_cons]
    apply bind (each item List.mem_cons_self state start)
    intro next _ holds
    exact ih holds fun later member => each later (List.mem_cons_of_mem _ member)

end Ends
end ImmixGc.Foundation
