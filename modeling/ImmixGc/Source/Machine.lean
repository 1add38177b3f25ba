import Mathlib.Algebra.Group.Nat.Defs
import Mathlib.Tactic.Common

/-!
# Machine-level conventions: words, addresses, and calls that do not return

Source: include/constants.h, include/utils.h.
Addresses and `size_t` values are `Nat`; the wrap-around of `size_t` arithmetic is
explicit wherever the source relies on it (`sizeAdd`, `sizeSub`, `sizeMul`). `NULL` is
address 0. Assertions are modelled as enabled, which is the default build of the
Makefile: a failed one ends the call with `Stop.assertion`.
-/
namespace ImmixGc.Source

def null : Nat := 0

def sizeModulus : Nat := 2 ^ 64

def sizeAdd (a b : Nat) : Nat := (a + b) % sizeModulus

def sizeSub (a b : Nat) : Nat := (a + (sizeModulus - b % sizeModulus)) % sizeModulus

def sizeMul (a b : Nat) : Nat := a * b % sizeModulus

/-- Conversion of a `size_t` value to `int`: the low 32 bits, two's complement. -/
def intOf (n : Nat) : Int := Int.bmod n (2 ^ 32)

/-- How a call can fail to return. `running` is the model's bound on an unbounded loop:
it stands for a loop that is still iterating, and no statement treats it as a result. -/
inductive Stop where
  | abort (message : String)
  | assertion (condition : String)
  | undefined (reason : String)
  | running
  deriving DecidableEq, Repr

abbrev Result (α : Type) := Except Stop α

def check (condition : Bool) (text : String) : Result Unit :=
  if condition then .ok () else .error (.assertion text)

def wordSize : Nat := 8
def blockSize : Nat := 32768
def lineSize : Nat := 256
def lineCount : Nat := 127
def largeObjectSize : Nat := 8192
def growthRate : Nat := 30

/-- `ROUND_TO_NEXT_MULTIPLE`, with the `size_t` wrap of both its steps. -/
def roundToNextMultiple (size multiple : Nat) : Nat :=
  sizeMul (sizeSub (sizeAdd size multiple) 1 / multiple) multiple

/-- Replace one cell of a store. -/
def store {α : Type} (cells : Nat → α) (address : Nat) (value : α) : Nat → α :=
  fun a => if a = address then value else cells a

section Store
variable {α : Type} (cells : Nat → α) (address a : Nat) (value : α)

@[simp] theorem store_same : store cells address value address = value := by simp [store]

theorem store_other (different : a ≠ address) : store cells address value a = cells a := by
  simp [store, different]

theorem store_apply : store cells address value a = if a = address then value else cells a := rfl

end Store

@[simp] theorem ok_bind {α β : Type} (value : α) (next : α → Result β) :
    ((.ok value : Result α) >>= next) = next value := rfl

@[simp] theorem error_bind {α β : Type} (stop : Stop) (next : α → Result β) :
    ((.error stop : Result α) >>= next) = .error stop := rfl

/-- A sequence of two calls returns exactly when the first returns and the second, run
on its result, returns. -/
theorem bind_eq_ok {α β : Type} {step : Result α} {next : α → Result β} {value : β} :
    (step >>= next) = .ok value ↔ ∃ x, step = .ok x ∧ next x = .ok value := by
  cases step with
  | error e => simp [bind, Except.bind]
  | ok x => simp [bind, Except.bind]

/-- A sequence of two calls stops where one of them does. -/
theorem bind_eq_error {α β : Type} {step : Result α} {next : α → Result β} {stop : Stop} :
    (step >>= next) = .error stop ↔
      step = .error stop ∨ ∃ x, step = .ok x ∧ next x = .error stop := by
  cases step with
  | error e => simp [bind, Except.bind]
  | ok x => simp [bind, Except.bind]

/-- What every call of a loop keeps, the loop keeps. -/
theorem foldlM_keeps {α β : Type} {step : β → α → Result β} {invariant : β → Prop} (items : List α)
    {state state' : β} (start : invariant state)
    (keeps : ∀ item ∈ items, ∀ before after, invariant before → step before item = .ok after →
      invariant after) (success : items.foldlM step state = .ok state') : invariant state' := by
  induction items generalizing state with
  | nil => exact Except.ok.inj success ▸ start
  | cons item rest ih =>
    rw [List.foldlM_cons] at success
    obtain ⟨next, first, others⟩ := bind_eq_ok.mp success
    exact ih (keeps item List.mem_cons_self _ _ start first)
      (fun later member => keeps later (List.mem_cons_of_mem _ member)) others

theorem map_eq_ok {α β : Type} {f : α → β} {result : Result α} {value : β}
    (mapped : result.map f = .ok value) : ∃ x, result = .ok x ∧ f x = value := by
  cases result with
  | error stop => cases mapped
  | ok x => exact ⟨x, rfl, Except.ok.inj mapped⟩

theorem check_eq_ok {condition : Bool} {text : String} {u : Unit} :
    check condition text = .ok u ↔ condition = true := by
  unfold check
  split <;> simp_all

theorem check_of_true {condition : Bool} {text : String} (holds : condition = true) :
    check condition text = .ok () := check_eq_ok.mpr holds

theorem sizeAdd_eq {a b : Nat} (fits : a + b < sizeModulus) : sizeAdd a b = a + b :=
  Nat.mod_eq_of_lt fits

theorem sizeSub_eq {a b : Nat} (le : b ≤ a) (fits : a < sizeModulus) : sizeSub a b = a - b := by
  simp only [sizeSub, sizeModulus] at *
  omega

theorem roundToNextMultiple_eq (size multiple : Nat) (positive : 0 < multiple)
    (fits : size + multiple ≤ sizeModulus) :
    roundToNextMultiple size multiple = (size + (multiple - 1)) / multiple * multiple := by
  have hle : (size + (multiple - 1)) / multiple * multiple ≤ size + (multiple - 1) :=
    Nat.div_mul_le_self _ _
  have hround : sizeSub (sizeAdd size multiple) 1 = size + (multiple - 1) := by
    simp only [sizeSub, sizeAdd, sizeModulus] at *
    omega
  rw [roundToNextMultiple, hround, sizeMul]
  exact Nat.mod_eq_of_lt (by simp only [sizeModulus] at *; omega)

end ImmixGc.Source
