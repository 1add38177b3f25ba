import Mathlib.Data.List.Nodup
import Mathlib.Tactic.Common

/-!
# Paths through a successor function

`Links next a xs b` says that following `next` from `a` meets exactly the elements of `xs`
and then `b`. With a pointer field as `next` it describes a linked list; with
`next x = x + extent x` on the naturals it says that the elements tile an interval.
-/
namespace ImmixGc.Foundation

def Links {α : Type} (next : α → α) : α → List α → α → Prop
  | a, [], b => a = b
  | a, x :: xs, b => a = x ∧ Links next (next x) xs b

namespace Links
variable {α : Type} {next : α → α}

@[simp] theorem nil_iff {a b : α} : Links next a [] b ↔ a = b := Iff.rfl

@[simp] theorem cons_iff {a b x : α} {xs : List α} :
    Links next a (x :: xs) b ↔ a = x ∧ Links next (next x) xs b := Iff.rfl

theorem append {a b : α} {xs ys : List α} :
    Links next a (xs ++ ys) b ↔ ∃ m, Links next a xs m ∧ Links next m ys b := by
  induction xs generalizing a with
  | nil => simp
  | cons x xs ih =>
    simp only [List.cons_append, cons_iff, ih]
    constructor
    · rintro ⟨rfl, m, left, right⟩
      exact ⟨m, ⟨rfl, left⟩, right⟩
    · rintro ⟨m, ⟨rfl, left⟩, right⟩
      exact ⟨rfl, m, left, right⟩

theorem split {a b x : α} {xs ys : List α} :
    Links next a (xs ++ x :: ys) b ↔ Links next a xs x ∧ Links next (next x) ys b := by
  rw [append]
  constructor
  · rintro ⟨m, left, rfl, right⟩
    exact ⟨left, right⟩
  · rintro ⟨left, right⟩
    exact ⟨x, left, rfl, right⟩

theorem congr {other : α → α} {a b : α} {xs : List α} (same : ∀ x ∈ xs, other x = next x)
    (links : Links next a xs b) : Links other a xs b := by
  induction xs generalizing a with
  | nil => exact links
  | cons x xs ih =>
    obtain ⟨rfl, rest⟩ := links
    refine ⟨rfl, ?_⟩
    rw [same a (by simp)]
    exact ih (fun y hy => same y (by simp [hy])) rest

/-- The path to an end that is not on it is unique. -/
theorem unique {a b : α} {xs ys : List α} (hxs : b ∉ xs) (hys : b ∉ ys)
    (left : Links next a xs b) (right : Links next a ys b) : xs = ys := by
  induction xs generalizing a ys with
  | nil =>
    obtain rfl := left
    cases ys with
    | nil => rfl
    | cons y ys => exact absurd (by simp [right.1]) hys
  | cons x xs ih =>
    obtain ⟨rfl, rest⟩ := left
    cases ys with
    | nil => exact absurd (by simp [nil_iff.mp right]) hxs
    | cons y ys =>
      obtain ⟨rfl, rest'⟩ := right
      rw [ih (by simp_all) (by simp_all) rest rest']

theorem last {a b x : α} {xs : List α} (links : Links next a (xs ++ [x]) b) : next x = b :=
  (split.mp links).2

/-- A path of distinct elements does not meet the point where its first part ends. -/
theorem middle_not_mem {m b : α} {xs ys : List α} (second : Links next m ys b)
    (nodup : (xs ++ ys).Nodup) (away : b ∉ xs) : m ∉ xs := by
  cases ys with
  | nil =>
    rw [nil_iff.mp second]
    exact away
  | cons y ys =>
    obtain ⟨rfl, -⟩ := second
    exact fun member => (List.nodup_append.mp nodup).2.2 m member m List.mem_cons_self rfl

/-- Where the end lies when the path is empty or not. -/
theorem start_eq_end_iff {a b : α} {xs : List α} (links : Links next a xs b) (away : b ∉ xs) :
    a = b ↔ xs = [] := by
  cases xs with
  | nil => simp [nil_iff.mp links]
  | cons x xs =>
    obtain ⟨rfl, -⟩ := links
    simp only [reduceCtorEq, iff_false]
    rintro rfl
    exact away (by simp)

end Links

/-! ## Tilings -/

section Tiling
variable {stop : Nat → Nat} {a b : Nat} {xs : List Nat}

/-- The elements of a tiling lie in its interval, each before its own end. -/
theorem Links.within (grows : ∀ x ∈ xs, x < stop x) (tiles : Links stop a xs b) :
    a ≤ b ∧ ∀ x ∈ xs, a ≤ x ∧ stop x ≤ b := by
  induction xs generalizing a with
  | nil => exact ⟨Nat.le_of_eq tiles, by simp⟩
  | cons x xs ih =>
    obtain ⟨rfl, rest⟩ := tiles
    have here := grows a (by simp)
    obtain ⟨le, inside⟩ := ih (fun y hy => grows y (by simp [hy])) rest
    refine ⟨by omega, fun y hy => ?_⟩
    rcases List.mem_cons.mp hy with rfl | later
    · exact ⟨Nat.le_refl _, le⟩
    · have := inside y later
      exact ⟨by omega, this.2⟩

/-- A tiling is in ascending order, without overlap. -/
theorem Links.ascending (grows : ∀ x ∈ xs, x < stop x) (tiles : Links stop a xs b) :
    xs.Pairwise fun x y => stop x ≤ y := by
  induction xs generalizing a with
  | nil => exact List.Pairwise.nil
  | cons x xs ih =>
    obtain ⟨rfl, rest⟩ := tiles
    have later : ∀ y ∈ xs, y < stop y := fun y hy => grows y (by simp [hy])
    refine List.Pairwise.cons ?_ (ih later rest)
    intro y hy
    exact (Links.within later rest).2 y hy |>.1

theorem Links.nodup (grows : ∀ x ∈ xs, x < stop x) (tiles : Links stop a xs b) : xs.Nodup :=
  (Links.ascending grows tiles).imp_of_mem fun {x y} hx _ le => by
    have := grows x hx
    omega

/-- A tiling has no more elements than its interval. -/
theorem Links.length_le (grows : ∀ x ∈ xs, x < stop x) (tiles : Links stop a xs b) :
    a + xs.length ≤ b := by
  induction xs generalizing a with
  | nil => exact Nat.le_of_eq tiles
  | cons x xs ih =>
    obtain ⟨rfl, rest⟩ := tiles
    have here := grows a (by simp)
    have := ih (fun y hy => grows y (by simp [hy])) rest
    rw [List.length_cons]
    omega

/-- Behind a tile comes another one, or the end of the interval. -/
theorem Links.end_cases (tiles : Links stop a xs b) {x : Nat} (member : x ∈ xs) :
    stop x = b ∨ stop x ∈ xs := by
  induction xs generalizing a with
  | nil => cases member
  | cons y ys ih =>
    obtain ⟨rfl, rest⟩ := tiles
    rcases List.mem_cons.mp member with rfl | later
    · cases ys with
      | nil => exact Or.inl (Links.nil_iff.mp rest)
      | cons z zs => exact Or.inr (by rw [rest.1]; simp)
    · exact (ih rest later).imp_right (List.mem_cons_of_mem _)

end Tiling
end ImmixGc.Foundation
