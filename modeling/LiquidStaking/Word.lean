import Mathlib

/-! Machine words, errors and fixed-point rates as the contracts use them. A call that
returns an error or panics is discarded whole by the chain, so both are `Except` failures.
`add128` and `sub` are the `+` and `-` of `Uint128` and `u64`, which panic; `checkedAdd128`,
`checkedAdd64` and `checkedSub64` are the `checked_*` methods, which return an error; and
`multiplyRatio` is `Uint128::multiply_ratio`, through a 256-bit intermediate. A `Decimal` is kept
as its atomic units, eighteen decimals, and `Decimal.one` is `Decimal::from_str("1.00")`. -/

namespace LiquidStaking

abbrev Addr := String

inductive StdError where
  | genericErr (msg : String)
  | notFound (kind : String)
  | overflow (operation : String)
  | panic (msg : String)
  deriving DecidableEq, Repr

def addWithin (w : Nat) (e : StdError) (a b : Nat) : Except StdError Nat :=
  if a + b < 2 ^ w then .ok (a + b) else .error e

def subWithin (e : StdError) (a b : Nat) : Except StdError Nat :=
  if b ≤ a then .ok (a - b) else .error e

def add128 : Nat → Nat → Except StdError Nat :=
  addWithin 128 (.panic "attempt to add with overflow")

def sub : Nat → Nat → Except StdError Nat :=
  subWithin (.panic "attempt to subtract with overflow")

def checkedAdd128 : Nat → Nat → Except StdError Nat :=
  addWithin 128 (.overflow "Add")

def checkedAdd64 : Nat → Nat → Except StdError Nat :=
  addWithin 64 (.overflow "Add")

def checkedSub64 : Nat → Nat → Except StdError Nat :=
  subWithin (.overflow "Sub")

def multiplyRatio (a num den : Nat) : Except StdError Nat :=
  if den = 0 then .error (.panic "Denominator must not be zero")
  else if a * num / den < 2 ^ 128 then .ok (a * num / den)
  else .error (.panic "Multiplication overflow")

theorem addWithin_eq_ok {w : Nat} {e : StdError} {a b c : Nat} :
    addWithin w e a b = .ok c ↔ a + b < 2 ^ w ∧ c = a + b := by
  unfold addWithin
  split <;> simp_all [eq_comm]

theorem subWithin_eq_ok {e : StdError} {a b c : Nat} :
    subWithin e a b = .ok c ↔ b ≤ a ∧ c = a - b := by
  unfold subWithin
  split <;> simp_all [eq_comm]

theorem addWithin_of_lt {w : Nat} {e : StdError} {a b : Nat} (h : a + b < 2 ^ w) :
    addWithin w e a b = .ok (a + b) := if_pos h

theorem subWithin_of_le {e : StdError} {a b : Nat} (h : b ≤ a) :
    subWithin e a b = .ok (a - b) := if_pos h

theorem add128_eq_ok {a b c : Nat} : add128 a b = .ok c ↔ a + b < 2 ^ 128 ∧ c = a + b :=
  addWithin_eq_ok

theorem sub_eq_ok {a b c : Nat} : sub a b = .ok c ↔ b ≤ a ∧ c = a - b := subWithin_eq_ok

theorem checkedAdd128_eq_ok {a b c : Nat} :
    checkedAdd128 a b = .ok c ↔ a + b < 2 ^ 128 ∧ c = a + b := addWithin_eq_ok

theorem checkedAdd64_eq_ok {a b c : Nat} :
    checkedAdd64 a b = .ok c ↔ a + b < 2 ^ 64 ∧ c = a + b := addWithin_eq_ok

theorem checkedSub64_eq_ok {a b c : Nat} : checkedSub64 a b = .ok c ↔ b ≤ a ∧ c = a - b :=
  subWithin_eq_ok

theorem multiplyRatio_eq_ok {a num den c : Nat} :
    multiplyRatio a num den = .ok c ↔ 0 < den ∧ a * num / den < 2 ^ 128 ∧ c = a * num / den := by
  unfold multiplyRatio
  split
  · simp_all
  · split <;> simp_all [Nat.pos_iff_ne_zero, eq_comm]

theorem multiplyRatio_of_le {a num den : Nat} (ha : a < 2 ^ 128) (hd : 0 < den)
    (hn : num ≤ den) : multiplyRatio a num den = .ok (a * num / den) := by
  have hle : a * num / den ≤ a :=
    Nat.div_le_of_le_mul (by rw [Nat.mul_comm den]; exact Nat.mul_le_mul_left a hn)
  unfold multiplyRatio
  rw [if_neg (Nat.pos_iff_ne_zero.mp hd), if_pos (by omega)]

@[simp] theorem throw_eq_error {ε α : Type} (e : ε) : (throw e : Except ε α) = .error e := rfl

@[simp] theorem error_bind {ε α β : Type} (e : ε) (f : α → Except ε β) :
    (Except.error e >>= f) = .error e := rfl

@[simp] theorem ok_bind {ε α β : Type} (a : α) (f : α → Except ε β) :
    (Except.ok a >>= f) = f a := rfl

theorem bind_eq_ok {ε α β : Type} {x : Except ε α} {f : α → Except ε β} {b : β} :
    x >>= f = .ok b ↔ ∃ a, x = .ok a ∧ f a = .ok b := by
  cases x <;> simp [bind, Except.bind]

theorem bind_ne_error {ε α β : Type} {x : Except ε α} {f : α → Except ε β} {e : ε}
    (hx : x ≠ .error e) (hf : ∀ a, f a ≠ .error e) : x >>= f ≠ .error e := by
  cases x with
  | error e' =>
    rw [error_bind]
    exact fun h => hx (by rw [Except.error.inj h])
  | ok a => rw [ok_bind]; exact hf a

structure Decimal where
  atomics : Nat
  deriving DecidableEq, Repr

namespace Decimal

def one : Decimal := ⟨10 ^ 18⟩

instance : LE Decimal := ⟨fun a b => a.atomics ≤ b.atomics⟩

instance : DecidableRel (α := Decimal) (· ≤ ·) := fun a b =>
  inferInstanceAs (Decidable (a.atomics ≤ b.atomics))

theorem le_def {a b : Decimal} : a ≤ b ↔ a.atomics ≤ b.atomics := Iff.rfl

def isZero (d : Decimal) : Bool := d.atomics = 0

/-- Modelled from the spec: `DecimalCheckedOps::checked_mul_uint` of the absent `pfc_steak`
package, the product with a full-width intermediate, truncated, checked to fit a `Uint128`. -/
def checkedMulUint (d : Decimal) (x : Nat) : Except StdError Nat :=
  if d.atomics * x / 10 ^ 18 < 2 ^ 128 then .ok (d.atomics * x / 10 ^ 18)
  else .error (.overflow "Mul")

theorem checkedMulUint_le {d : Decimal} {x : Nat} (hd : d ≤ one) (hx : x < 2 ^ 128) :
    ∃ f, d.checkedMulUint x = .ok f ∧ f ≤ x := by
  have hle : d.atomics * x / 10 ^ 18 ≤ x :=
    Nat.div_le_of_le_mul (Nat.mul_le_mul_right x hd)
  exact ⟨_, if_pos (by omega), hle⟩

end Decimal

end LiquidStaking
