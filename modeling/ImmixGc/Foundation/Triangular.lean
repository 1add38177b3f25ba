import Mathlib.Data.Fintype.EquivFin
import Mathlib.Data.Int.ModEq
import Mathlib.Data.Nat.Prime.Basic
import Mathlib.Tactic.Ring

/-!
# Triangular probe sequences

Adding 1, 2, 3, ... to a start visits every residue modulo a power of two exactly once in
its first `2 ^ n` steps. The proof is the factorisation
`k(k+1) - l(l+1) = (k-l)(k+l+1)`, in which exactly one factor is odd.
-/
namespace ImmixGc.Foundation

def triangular : Nat → Nat
  | 0 => 0
  | k + 1 => triangular k + (k + 1)

theorem two_mul_triangular (k : Nat) : 2 * triangular k = k * (k + 1) := by
  induction k with
  | zero => rfl
  | succ k ih =>
    rw [triangular, Nat.mul_add, ih]
    ring

/-- Two different indices below `2 ^ n` never meet modulo `2 ^ n`. -/
theorem triangular_lt_ne (n k l : Nat) (order : l < k) (bound : k < 2 ^ n) :
    triangular k % 2 ^ n ≠ triangular l % 2 ^ n := by
  intro equal
  have hle : triangular l ≤ triangular k := by
    have hl := two_mul_triangular l
    have hk := two_mul_triangular k
    have : l * (l + 1) ≤ k * (k + 1) := Nat.mul_le_mul (by omega) (by omega)
    omega
  have hdvd : 2 ^ n ∣ triangular k - triangular l :=
    (Nat.modEq_iff_dvd' hle).mp equal.symm
  have factor : 2 * (triangular k - triangular l) = (k - l) * (k + l + 1) := by
    have hk := two_mul_triangular k
    have hl := two_mul_triangular l
    obtain ⟨d, rfl⟩ : ∃ d, k = l + d := ⟨k - l, by omega⟩
    have expand : (l + d) * (l + d + 1) = l * (l + 1) + d * (l + d + l + 1) := by ring
    rw [Nat.mul_sub, hk, hl, expand, Nat.add_sub_cancel_left, Nat.add_sub_cancel_left]
  have hpow : 2 ^ (n + 1) ∣ (k - l) * (k + l + 1) := by
    rw [← factor, Nat.pow_succ, Nat.mul_comm]
    exact Nat.mul_dvd_mul_left 2 hdvd
  rcases Nat.even_or_odd (k - l) with even | odd
  · -- the second factor is odd, so the power divides the first
    have hodd : Odd (k + l + 1) := by
      have hsum : k + l + 1 = (k - l) + (2 * l + 1) := by omega
      rw [hsum]
      exact even.add_odd (odd_two_mul_add_one l)
    have hcop : Nat.Coprime (2 ^ (n + 1)) (k + l + 1) :=
      Nat.Coprime.pow_left _ ((Nat.coprime_two_left).mpr hodd)
    have hle' := Nat.le_of_dvd (by omega) (hcop.dvd_of_dvd_mul_right hpow)
    have := Nat.pow_lt_pow_right (a := 2) (by decide) (Nat.lt_succ_self n)
    omega
  · have hcop : Nat.Coprime (2 ^ (n + 1)) (k - l) :=
      Nat.Coprime.pow_left _ ((Nat.coprime_two_left).mpr odd)
    have hle' := Nat.le_of_dvd (by omega) (hcop.dvd_of_dvd_mul_left hpow)
    have := Nat.pow_succ 2 n
    omega

/-- From any start, every residue is met within `2 ^ n` steps. -/
theorem triangular_covers (n start target : Nat) (bound : target < 2 ^ n) :
    ∃ k < 2 ^ n, (start + triangular k) % 2 ^ n = target := by
  have positive : 0 < 2 ^ n := Nat.two_pow_pos n
  let f : Fin (2 ^ n) → Fin (2 ^ n) :=
    fun k => ⟨(start + triangular k.val) % 2 ^ n, Nat.mod_lt _ positive⟩
  have injective : Function.Injective f := by
    intro k l equal
    have hmod : (start + triangular k.val) % 2 ^ n = (start + triangular l.val) % 2 ^ n :=
      congrArg Fin.val equal
    have hmod' : triangular k.val % 2 ^ n = triangular l.val % 2 ^ n :=
      Nat.ModEq.add_left_cancel' start hmod
    rcases Nat.lt_trichotomy k.val l.val with lt | eq | gt
    · exact absurd hmod'.symm (triangular_lt_ne n _ _ lt l.isLt)
    · exact Fin.ext eq
    · exact absurd hmod' (triangular_lt_ne n _ _ gt k.isLt)
  obtain ⟨k, hk⟩ := Finite.surjective_of_injective injective ⟨target, bound⟩
  exact ⟨k.val, k.isLt, congrArg Fin.val hk⟩

end ImmixGc.Foundation
