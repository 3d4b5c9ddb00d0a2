import Mathlib

-- Unsigned 64-bit arithmetic over `Nat`: the saturating and the checked operations of Rust's `usize`.
namespace Usize

-- It is irreducible, as unfolding a comparison with it takes a step for each of its predecessors.
@[irreducible]
def max : Nat := 2 ^ 64 - 1

def saturatingAdd (a b : Nat) : Nat :=
  min (a + b) max

def saturatingMul (a b : Nat) : Nat :=
  min (a * b) max

def checkedAdd (a b : Nat) : Option Nat :=
  if a + b ≤ max then some (a + b) else none

def wrappingAdd (a b : Nat) : Nat :=
  (a + b) % (max + 1)

variable {a b c : Nat}

theorem saturatingAdd_eq (h : a + b ≤ max) : saturatingAdd a b = a + b :=
  Nat.min_eq_left h

theorem saturatingAdd_assoc :
    saturatingAdd (saturatingAdd a b) c = saturatingAdd a (b + c) := by
  simp only [saturatingAdd]
  omega

theorem saturatingAdd_zero (h : a ≤ max) : saturatingAdd a 0 = a := by
  simpa using saturatingAdd_eq (b := 0) h

-- A product that saturates saturates the sum as well.
theorem saturatingAdd_saturatingMul (ha : 0 < a) :
    saturatingAdd b (saturatingMul a (saturatingAdd c 1)) = min (b + a * (c + 1)) max := by
  simp only [saturatingAdd, saturatingMul]
  rcases Nat.le_total (c + 1) max with hc | hc
  case inl =>
    rw [Nat.min_eq_left hc]
    omega
  case inr =>
    have hle : max ≤ a * max := Nat.le_mul_of_pos_left _ ha
    have hle' : a * max ≤ a * (c + 1) := Nat.mul_le_mul_left a hc
    rw [Nat.min_eq_right hc]
    omega

theorem wrappingAdd_eq (h : a + b ≤ max) : wrappingAdd a b = a + b :=
  Nat.mod_eq_of_lt (Nat.lt_succ_of_le h)

theorem checkedAdd_eq_some : checkedAdd a b = some c ↔ a + b = c ∧ c ≤ max := by
  simp only [checkedAdd]
  split <;> simp <;> omega

end Usize

-- Unsigned 32-bit arithmetic over `Nat`. Rust's plain operations wrap around in a release build.
namespace U32

def wrappingAdd (a b : Nat) : Nat :=
  (a + b) % 2 ^ 32

def wrappingMul (a b : Nat) : Nat :=
  (a * b) % 2 ^ 32

def saturatingMul (a b : Nat) : Nat :=
  min (a * b) (2 ^ 32 - 1)

def checkedAdd (a b : Nat) : Option Nat :=
  if a + b < 2 ^ 32 then some (a + b) else none

variable {a b c : Nat}

theorem wrappingAdd_eq (h : a + b < 2 ^ 32) : wrappingAdd a b = a + b :=
  Nat.mod_eq_of_lt h

theorem wrappingMul_eq (h : a * b < 2 ^ 32) : wrappingMul a b = a * b :=
  Nat.mod_eq_of_lt h

-- A product that fills 32 bits does not fit when something is added.
theorem checkedAdd_saturatingMul (ha : 0 < a) :
    checkedAdd a (saturatingMul b c) = if a + b * c < 2 ^ 32 then some (a + b * c) else none := by
  by_cases h : a + b * c < 2 ^ 32
  case pos =>
    have hm : saturatingMul b c = b * c := Nat.min_eq_left (by omega)
    rw [hm, checkedAdd]
  case neg =>
    have hm : ¬a + saturatingMul b c < 2 ^ 32 := by
      simp only [saturatingMul]
      omega
    rw [checkedAdd, if_neg hm, if_neg h]

end U32
