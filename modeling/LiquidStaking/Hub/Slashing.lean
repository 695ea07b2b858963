import LiquidStaking.Hub.State

/-! Slashing reconciliation: how `reconcile` spreads a shortfall over the batches it settles.
`reconcile_batches` lives in the hub's `math.rs`, which is not in the sources; it is modelled
from the spec: a proportional deduction, truncated, whose remainder is re-flowed in scan order
into what each batch has left, so that no batch goes below zero and the deductions add up to
the shortfall whenever the batches hold that much. -/

namespace LiquidStaking.Hub

def unclaimedTotal (bs : List Batch) : Nat := (bs.map (·.amountUnclaimed)).sum

def Batch.shape (b : Batch) : Batch := { b with amountUnclaimed := 0 }

def reflow : Nat → List (Batch × Nat) → List Batch
  | _, [] => []
  | r, (b, d) :: rest =>
    let e := min r (b.amountUnclaimed - d)
    { b with amountUnclaimed := b.amountUnclaimed - d - e } :: reflow (r - e) rest

def proportionalDeductions (batches : List Batch) (nativeToDeduct : Nat) : List (Batch × Nat) :=
  batches.map fun b =>
    (b, min b.amountUnclaimed (nativeToDeduct * b.amountUnclaimed / unclaimedTotal batches))

/-- Modelled from the spec: `reconcile_batches`, the proportional deductions, then the
remainder re-flowed. -/
def reconcileBatches (batches : List Batch) (nativeToDeduct : Nat) : List Batch :=
  let firstPass := proportionalDeductions batches nativeToDeduct
  reflow (nativeToDeduct - (firstPass.map (·.2)).sum) firstPass

theorem shape_reflow (r : Nat) (xs : List (Batch × Nat)) :
    (reflow r xs).map Batch.shape = xs.map (fun p => p.1.shape) := by
  induction xs generalizing r with
  | nil => rfl
  | cons p rest ih =>
    simp only [reflow, List.map_cons, ih]
    rfl

theorem shape_reconcileBatches (bs : List Batch) (n : Nat) :
    (reconcileBatches bs n).map Batch.shape = bs.map Batch.shape := by
  simp only [reconcileBatches, shape_reflow, proportionalDeductions, List.map_map]
  rfl

theorem mem_reflow {r : Nat} {xs : List (Batch × Nat)} {b' : Batch} (h : b' ∈ reflow r xs) :
    ∃ p ∈ xs, b'.shape = p.1.shape ∧ b'.amountUnclaimed ≤ p.1.amountUnclaimed := by
  induction xs generalizing r with
  | nil => simp [reflow] at h
  | cons p rest ih =>
    rcases List.mem_cons.mp h with rfl | h
    · exact ⟨p, List.mem_cons_self _ _, rfl, by simp only; omega⟩
    · obtain ⟨p', hp', hs⟩ := ih h
      exact ⟨p', List.mem_cons_of_mem _ hp', hs⟩

theorem mem_reconcileBatches {bs : List Batch} {n : Nat} {b' : Batch}
    (h : b' ∈ reconcileBatches bs n) :
    ∃ b ∈ bs, b'.shape = b.shape ∧ b'.amountUnclaimed ≤ b.amountUnclaimed := by
  obtain ⟨p, hp, hs⟩ := mem_reflow h
  obtain ⟨b, hb, rfl⟩ := List.mem_map.mp hp
  exact ⟨b, hb, hs⟩

theorem unclaimedTotal_reflow (r : Nat) (xs : List (Batch × Nat)) :
    unclaimedTotal (reflow r xs) =
      (xs.map fun p => p.1.amountUnclaimed - p.2).sum -
        min r (xs.map fun p => p.1.amountUnclaimed - p.2).sum := by
  induction xs generalizing r with
  | nil => simp [reflow, unclaimedTotal]
  | cons p rest ih =>
    have h := ih (r - min r (p.1.amountUnclaimed - p.2))
    simp only [unclaimedTotal] at h
    simp only [reflow, unclaimedTotal, List.map_cons, List.sum_cons, h]
    generalize p.1.amountUnclaimed - p.2 = x
    generalize (rest.map fun p => p.1.amountUnclaimed - p.2).sum = S
    omega

theorem sum_div_le (c n : Nat) (xs : List Nat) : (xs.map fun a => c * a / n).sum ≤ c * xs.sum / n := by
  induction xs with
  | nil => simp
  | cons a rest ih =>
    calc (c * a / n) + (rest.map fun a => c * a / n).sum ≤ c * a / n + c * rest.sum / n :=
          Nat.add_le_add_left ih _
      _ ≤ (c * a + c * rest.sum) / n := Nat.add_div_le_add_div _ _ _
      _ = c * (a :: rest).sum / n := by rw [List.sum_cons, Nat.mul_add]

theorem sum_sub_add_sum (xs : List (Batch × Nat)) (h : ∀ p ∈ xs, p.2 ≤ p.1.amountUnclaimed) :
    (xs.map fun p => p.1.amountUnclaimed - p.2).sum + (xs.map (·.2)).sum =
      (xs.map (·.1.amountUnclaimed)).sum := by
  induction xs with
  | nil => rfl
  | cons p rest ih =>
    have hp := h p (List.mem_cons_self _ _)
    have := ih fun q hq => h q (List.mem_cons_of_mem _ hq)
    simp only [List.map_cons, List.sum_cons]
    omega

theorem unclaimedTotal_reconcileBatches (bs : List Batch) (n : Nat) :
    unclaimedTotal (reconcileBatches bs n) = unclaimedTotal bs - min n (unclaimedTotal bs) := by
  have hle : ∀ p ∈ proportionalDeductions bs n, p.2 ≤ p.1.amountUnclaimed := by
    intro p hp
    obtain ⟨b, -, rfl⟩ := List.mem_map.mp hp
    exact min_le_left _ _
  have hsplit := sum_sub_add_sum _ hle
  have hfst : ((proportionalDeductions bs n).map (·.1.amountUnclaimed)).sum = unclaimedTotal bs := by
    simp only [proportionalDeductions, unclaimedTotal, List.map_map]
    rfl
  have hsnd : ((proportionalDeductions bs n).map (·.2)).sum ≤ n := by
    calc ((proportionalDeductions bs n).map (·.2)).sum
        ≤ ((bs.map (·.amountUnclaimed)).map fun a => n * a / unclaimedTotal bs).sum := by
          simp only [proportionalDeductions, List.map_map]
          exact List.sum_le_sum fun b _ => min_le_right _ _
      _ ≤ n * unclaimedTotal bs / unclaimedTotal bs := sum_div_le _ _ _
      _ ≤ n := Nat.div_le_of_le_mul (by rw [Nat.mul_comm])
  rw [reconcileBatches, unclaimedTotal_reflow]
  omega

end LiquidStaking.Hub
