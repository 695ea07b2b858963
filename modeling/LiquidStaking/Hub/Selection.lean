import LiquidStaking.Hub.Execute

/-! Where `bond` and `reinvest` delegate. Both scan the delegations of the active validators
once with a running best, which a later entry replaces only when it is strictly better; so each
lands on the first entry that is best by its own measure: `bond` on the least delegated
validator, `reinvest` on the one furthest below its mining-power target. -/

namespace LiquidStaking.Hub

section FirstMin
variable {α β γ : Type} [LinearOrder β] {key : α → β}

structure FirstMin (key : α → β) (xs : List α) (i : Nat) (x : α) : Prop where
  value_at : xs[i]? = some x
  minimal : ∀ y ∈ xs, key x ≤ key y
  leftmost : ∀ j < i, ∀ y, xs[j]? = some y → key x < key y

theorem FirstMin.singleton (x : α) : FirstMin key [x] 0 x :=
  ⟨rfl, fun _ hy => (List.mem_singleton.mp hy) ▸ le_rfl, fun _ h => absurd h (Nat.not_lt_zero _)⟩

theorem FirstMin.concat {xs : List α} {i : Nat} {x : α} (h : FirstMin key xs i x) (z : α) :
    (key z < key x → FirstMin key (xs ++ [z]) xs.length z) ∧
      (¬ key z < key x → FirstMin key (xs ++ [z]) i x) := by
  have hi : i < xs.length := (List.getElem?_eq_some_iff.mp h.value_at).1
  refine ⟨fun hz => ⟨List.getElem?_concat_length xs z, fun y hy => ?_, fun j hj y hy => ?_⟩,
    fun hz => ⟨by rw [List.getElem?_append_left hi, h.value_at], fun y hy => ?_,
      fun j hj y hy => ?_⟩⟩
  · rcases List.mem_append.mp hy with hy | hy
    · exact (hz.trans_le (h.minimal y hy)).le
    · rw [List.mem_singleton.mp hy]
  · rw [List.getElem?_append_left hj] at hy
    exact hz.trans_le (h.minimal y (List.getElem?_mem hy))
  · rcases List.mem_append.mp hy with hy | hy
    · exact h.minimal y hy
    · rw [List.mem_singleton.mp hy]
      exact not_lt.mp hz
  · rw [List.getElem?_append_left (hj.trans hi)] at hy
    exact h.leftmost j hj y hy

theorem firstMin_foldl (key : α → β) {R : γ → α → Prop} {step : γ → α → γ}
    (hstep : ∀ b y z, R b y → (key z < key y → R (step b z) z) ∧ (¬ key z < key y → step b z = b))
    (b₀ : γ) (x : α) (h₀ : R b₀ x) (xs : List α) :
    ∃ i y, FirstMin key (x :: xs) i y ∧ R (xs.foldl step b₀) y := by
  induction xs using List.reverseRecOn with
  | nil => exact ⟨0, x, .singleton x, h₀⟩
  | append_singleton ys z ih =>
    obtain ⟨i, y, hy, hR⟩ := ih
    rw [List.foldl_concat, ← List.cons_append]
    by_cases hz : key z < key y
    · exact ⟨_, z, (hy.concat z).1 hz, (hstep _ _ _ hR).1 hz⟩
    · exact ⟨i, y, (hy.concat z).2 hz, by rw [(hstep _ _ _ hR).2 hz]; exact hR⟩

end FirstMin

variable {s s' : State} {env : Env} {q : Querier} {r : Response}

/-! ### `bond` -/

theorem minDelegation_eq_foldl (best : String × Nat) (ds : List Delegation) :
    minDelegation best ds =
      ds.foldl (fun b d => if d.amount < b.2 then (d.validator, d.amount) else b) best := by
  induction ds generalizing best with
  | nil => rfl
  | cons d ds ih => exact ih _

theorem firstMin_minDelegation (d₀ : Delegation) (rest : List Delegation) :
    ∃ i d, FirstMin Delegation.amount (d₀ :: rest) i d ∧
      minDelegation (d₀.validator, d₀.amount) rest = (d.validator, d.amount) := by
  rw [minDelegation_eq_foldl]
  refine firstMin_foldl Delegation.amount (R := fun b d => b = (d.validator, d.amount)) ?_ _ d₀
    rfl rest
  rintro _ y z rfl
  exact ⟨fun hz => if_pos hz, fun hz => if_neg hz⟩

/-- `bond` delegates the whole deposit to the first active validator of least delegation. -/
theorem bond_delegates_to_first_minimum {receiver : Addr} {amount : Nat}
    (h : bond s env q receiver amount = .ok (s', r)) :
    ∃ i d, FirstMin Delegation.amount (queryDelegations q s.validatorsActive s.denom) i d ∧
      ∃ token mint, s.steakToken = some token ∧
        r.messages = [.delegate d.validator amount s.denom, .mint token receiver mint] := by
  unfold bond at h
  cases hst : s.steakToken with
  | none => simp [hst] at h
  | some token =>
    cases hd : queryDelegations q s.validatorsActive s.denom with
    | nil => simp [hst, hd] at h
    | cons d₀ rest =>
      simp only [hst, hd, bind_eq_ok, pure, Except.pure, Except.ok.injEq, Prod.mk.injEq] at h
      obtain ⟨m, -, -, rfl⟩ := h
      obtain ⟨i, d, hmin, hv⟩ := firstMin_minDelegation d₀ rest
      exact ⟨i, d, hmin, token, m, rfl, by rw [hv]⟩

def unevenQuerier : Querier :=
  { sampleQuerier with delegation := fun v => if v = "v1" then 5 else 1 }

theorem bond_delegates_to_first_minimum_sample : ∃ s,
    Reachable zeroDigest (fun _ => True) sampleMsg sampleEnv (sampleEnv, s) ∧ ∃ s' r,
      bond s sampleEnv unevenQuerier "alice" 100 = .ok (s', r) ∧
      r.messages.head? = some (.delegate "v2" 100 "ujuno") ∧
      ∃ i d, FirstMin Delegation.amount
        (queryDelegations unevenQuerier s.validatorsActive s.denom) i d ∧
        ∃ token mint, s.steakToken = some token ∧
          r.messages = [.delegate d.validator 100 s.denom, .mint token "alice" mint] := by
  obtain ⟨s, hp, s', r, h, hhead⟩ : ∃ s,
      Reachable zeroDigest (fun _ => True) sampleMsg sampleEnv (sampleEnv, s) ∧ ∃ s' r,
        bond s sampleEnv unevenQuerier "alice" 100 = .ok (s', r) ∧
        r.messages.head? = some (.delegate "v2" 100 "ujuno") :=
    ⟨_, reachable_of_runCalls zeroDigest
      [⟨sampleEnv, sampleQuerier, "hub", .registerSteakToken sampleTokenEvents⟩] rfl rfl,
      _, _, rfl, rfl⟩
  exact ⟨s, hp, s', r, h, hhead, bond_delegates_to_first_minimum h⟩

/-! ### `reinvest` -/

def scanRank (e : Ordering × Nat) : Nat := if e.1 = .gt then e.2 + 2 else orderingRank e.1

def deficitRank (a t : Nat) : Nat := if a < t then t - a + 2 else if t = a then 1 else 0

def reinvestStep (best : String × Ordering × Nat) (p : Delegation × Nat) :
    String × Ordering × Nat :=
  if orderingRank (compare p.2 p.1.amount) > orderingRank best.2.1 ||
      (compare p.2 p.1.amount == .gt && absDiff p.2 p.1.amount > best.2.2) then
    (p.1.validator, compare p.2 p.1.amount, absDiff p.2 p.1.amount)
  else best

theorem beq_gt (c : Ordering) : (c == .gt) = decide (c = .gt) := by cases c <;> rfl

theorem replaces_iff (best : String × Ordering × Nat) (c : Ordering) (d : Nat) :
    (orderingRank c > orderingRank best.2.1 || (c == .gt && d > best.2.2)) = true ↔
      scanRank best.2 < scanRank (c, d) := by
  obtain ⟨_, c', d'⟩ := best
  cases c <;> cases c' <;> simp [scanRank, orderingRank, beq_gt]

theorem scanRank_entry (a t : Nat) : scanRank (compare t a, absDiff t a) = deficitRank a t := by
  rcases lt_trichotomy a t with h | rfl | h
  · simp [scanRank, deficitRank, absDiff, h, h.le, compare_gt_iff_gt.mpr h]
  · simp [scanRank, deficitRank, orderingRank, compare_eq_iff_eq.mpr rfl]
  · simp [scanRank, deficitRank, orderingRank, compare_lt_iff_lt.mpr h, h.ne, Nat.not_lt.mpr h.le]

theorem scanRank_first (a t : Nat) :
    scanRank (compare t a, if compare t a == .gt then absDiff t a else 0) = deficitRank a t := by
  rw [← scanRank_entry]
  cases compare t a <;> simp [scanRank, beq_gt]

theorem deficitRank_of_lt {a t : Nat} (h : a < t) : deficitRank a t = t - a + 2 := if_pos h

theorem deficitRank_self (a : Nat) : deficitRank a a = 1 := by simp [deficitRank]

theorem deficitRank_of_gt {a t : Nat} (h : t < a) : deficitRank a t = 0 := by
  simp [deficitRank, h.ne, Nat.not_lt.mpr h.le]

theorem deficitRank_lt_two {a t : Nat} (h : t ≤ a) : deficitRank a t < 2 := by
  unfold deficitRank
  split_ifs <;> omega

theorem reinvestScan_eq_ok {tb : Nat} {best res : String × Ordering × Nat} {ds : List Delegation}
    (h : reinvestScan s tb best ds = .ok res) :
    ∃ ps : List (Delegation × Nat), ps.map Prod.fst = ds ∧
      (∀ p ∈ ps, computeTargetDelegationFromMiningPower tb (s.miningPower p.1.validator)
        s.totalMiningPower = .ok p.2) ∧
      res = ps.foldl reinvestStep best := by
  induction ds generalizing best with
  | nil => exact ⟨[], rfl, nofun, (Except.ok.inj h).symm⟩
  | cons d ds ih =>
    simp only [reinvestScan, bind_eq_ok] at h
    obtain ⟨t, ht, h⟩ := h
    obtain ⟨ps, hps, hts, rfl⟩ := ih h
    refine ⟨(d, t) :: ps, by rw [List.map_cons, hps], ?_, rfl⟩
    rintro p (_ | ⟨_, hp⟩)
    exacts [ht, hts p hp]

theorem reinvestStep_spec (b : String × Ordering × Nat) (y z : Delegation × Nat)
    (hb : scanRank b.2 = deficitRank y.1.amount y.2) :
    (deficitRank y.1.amount y.2 < deficitRank z.1.amount z.2 →
      (reinvestStep b z).1 = z.1.validator ∧
        scanRank (reinvestStep b z).2 = deficitRank z.1.amount z.2) ∧
    (¬ deficitRank y.1.amount y.2 < deficitRank z.1.amount z.2 → reinvestStep b z = b) := by
  have hc := replaces_iff b (compare z.2 z.1.amount) (absDiff z.2 z.1.amount)
  rw [hb, scanRank_entry] at hc
  refine ⟨fun hz => ?_, fun hz => if_neg (mt hc.mp hz)⟩
  rw [reinvestStep, if_pos (hc.mpr hz)]
  exact ⟨rfl, scanRank_entry _ _⟩

theorem firstMin_reinvestStep (d₀ : Delegation) (t₀ : Nat) (ps : List (Delegation × Nat)) :
    ∃ i p, FirstMin (fun q : Delegation × Nat => OrderDual.toDual (deficitRank q.1.amount q.2))
      ((d₀, t₀) :: ps) i p ∧
      (ps.foldl reinvestStep (d₀.validator, compare t₀ d₀.amount,
        if compare t₀ d₀.amount == .gt then absDiff t₀ d₀.amount else 0)).1 = p.1.validator := by
  obtain ⟨i, p, hmin, hp, -⟩ :=
    firstMin_foldl (fun q : Delegation × Nat => OrderDual.toDual (deficitRank q.1.amount q.2))
      (R := fun (b : String × Ordering × Nat) (p : Delegation × Nat) =>
        b.1 = p.1.validator ∧ scanRank b.2 = deficitRank p.1.amount p.2)
      (fun b y z hb => reinvestStep_spec b y z hb.2)
      (d₀.validator, compare t₀ d₀.amount,
        if compare t₀ d₀.amount == .gt then absDiff t₀ d₀.amount else 0)
      (d₀, t₀) ⟨rfl, scanRank_first _ _⟩ ps
  exact ⟨i, p, hmin, hp⟩

def DeficitChoice (ps : List (Delegation × Nat)) (i : Nat) (p : Delegation × Nat) : Prop :=
  ps[i]? = some p ∧
  ((∃ q ∈ ps, q.1.amount < q.2) →
    p.1.amount < p.2 ∧ (∀ q ∈ ps, q.1.amount < q.2 → q.2 - q.1.amount ≤ p.2 - p.1.amount) ∧
    ∀ j < i, ∀ q, ps[j]? = some q → q.1.amount < q.2 → q.2 - q.1.amount < p.2 - p.1.amount) ∧
  ((∀ q ∈ ps, q.2 ≤ q.1.amount) → (∃ q ∈ ps, q.2 = q.1.amount) →
    p.2 = p.1.amount ∧ ∀ j < i, ∀ q, ps[j]? = some q → q.2 ≠ q.1.amount) ∧
  ((∀ q ∈ ps, q.2 < q.1.amount) → i = 0)

theorem deficitChoice_of_firstMin {ps : List (Delegation × Nat)} {i : Nat} {p : Delegation × Nat}
    (h : FirstMin (fun q : Delegation × Nat => OrderDual.toDual (deficitRank q.1.amount q.2))
      ps i p) : DeficitChoice ps i p := by
  have hle : ∀ q ∈ ps, deficitRank q.1.amount q.2 ≤ deficitRank p.1.amount p.2 := h.minimal
  have hlt : ∀ j < i, ∀ q, ps[j]? = some q →
      deficitRank q.1.amount q.2 < deficitRank p.1.amount p.2 := h.leftmost
  have hp : p ∈ ps := List.getElem?_mem h.value_at
  refine ⟨h.value_at, fun ⟨q, hq, hqb⟩ => ?_, fun hnone ⟨q, hq, hqe⟩ => ?_, fun hover => ?_⟩
  · have hpb : p.1.amount < p.2 := Nat.lt_of_not_le fun hp' => by
      have := hle q hq
      rw [deficitRank_of_lt hqb] at this
      have := deficitRank_lt_two hp'
      omega
    refine ⟨hpb, fun q hq hqb => ?_, fun j hj q hq hqb => ?_⟩
    · have := hle q hq
      rw [deficitRank_of_lt hqb, deficitRank_of_lt hpb] at this
      omega
    · have := hlt j hj q hq
      rw [deficitRank_of_lt hqb, deficitRank_of_lt hpb] at this
      omega
  · have hpe : p.2 = p.1.amount := by
      have h1 := hle q hq
      rw [hqe, deficitRank_self] at h1
      rcases Nat.lt_or_eq_of_le (hnone p hp) with hpo | hpe
      · rw [deficitRank_of_gt hpo] at h1
        omega
      · exact hpe
    refine ⟨hpe, fun j hj q hq hqe => ?_⟩
    have := hlt j hj q hq
    rw [hpe, deficitRank_self, hqe, deficitRank_self] at this
    omega
  · rcases Nat.eq_zero_or_pos i with hi | hi
    · exact hi
    obtain ⟨q, hq⟩ : ∃ q, ps[0]? = some q := by
      cases ps with
      | nil => simp at hp
      | cons q _ => exact ⟨q, List.getElem?_cons_zero⟩
    have := hlt 0 hi q hq
    rw [deficitRank_of_gt (hover p hp)] at this
    omega

/-- `reinvest` delegates the rewards less the fee to the validator the rule picks, over the
active validators' delegations paired with the targets their mining powers give. -/
theorem reinvest_fills_widest_deficit (h : reinvest s env q = .ok (s', r)) :
    ∃ (ps : List (Delegation × Nat)) (i : Nat) (p : Delegation × Nat) (fee : Nat),
      ps.map Prod.fst = queryDelegations q s.validatorsActive s.denom ∧
      (∀ p ∈ ps, computeTargetDelegationFromMiningPower (totalDelegated (ps.map Prod.fst))
        (s.miningPower p.1.validator) s.totalMiningPower = .ok p.2) ∧
      DeficitChoice ps i p ∧
      reinvestFee s.feeRate (q.balance s.denom - s.prevDenom) = .ok fee ∧
      r.messages = .delegate p.1.validator (q.balance s.denom - s.prevDenom - fee) s.denom ::
        feeMsgs s fee := by
  unfold reinvest at h
  by_cases hc : q.balance s.denom ≤ s.prevDenom
  · simp [hc] at h
  cases hd : queryDelegations q s.validatorsActive s.denom with
  | nil => simp [hc, hd] at h
  | cons d₀ rest =>
    simp only [hc, hd, ite_false, bind_eq_ok, pure, Except.pure, Except.ok.injEq,
      Prod.mk.injEq] at h
    obtain ⟨-, -, t₀, ht₀, best, hbest, f, hf, rfl, rfl⟩ := h
    obtain ⟨ps, hps, hts, rfl⟩ := reinvestScan_eq_ok hbest
    obtain ⟨i, p, hmin, hp⟩ := firstMin_reinvestStep d₀ t₀ ps
    refine ⟨(d₀, t₀) :: ps, i, p, f, by rw [List.map_cons, hps], ?_,
      deficitChoice_of_firstMin hmin, hf, by rw [hp]⟩
    rw [List.map_cons, hps]
    rintro p (_ | ⟨_, hp⟩)
    exacts [ht₀, hts p hp]

def v2Querier : Querier := { sampleQuerier with validator := fun _ => some "v2" }

theorem reinvest_fills_widest_deficit_sample : ∃ s,
    Reachable zeroDigest (fun _ => True) sampleMsg sampleEnv (⟨1010, 150, "hub"⟩, s) ∧ ∃ s' r,
      reinvest s ⟨1010, 150, "hub"⟩ sampleQuerier = .ok (s', r) ∧
      r.messages = [.delegate "v2" 10 "ujuno"] ∧
      ∃ (ps : List (Delegation × Nat)) (i : Nat) (p : Delegation × Nat) (fee : Nat),
        ps.map Prod.fst = queryDelegations sampleQuerier s.validatorsActive s.denom ∧
        (∀ p ∈ ps, computeTargetDelegationFromMiningPower (totalDelegated (ps.map Prod.fst))
          (s.miningPower p.1.validator) s.totalMiningPower = .ok p.2) ∧
        DeficitChoice ps i p ∧
        reinvestFee s.feeRate (sampleQuerier.balance s.denom - s.prevDenom) = .ok fee ∧
        r.messages = .delegate p.1.validator
          (sampleQuerier.balance s.denom - s.prevDenom - fee) s.denom :: feeMsgs s fee := by
  obtain ⟨s, hp, s', r, h, hmsgs⟩ : ∃ s,
      Reachable zeroDigest (fun _ => True) sampleMsg sampleEnv (⟨1010, 150, "hub"⟩, s) ∧ ∃ s' r,
        reinvest s ⟨1010, 150, "hub"⟩ sampleQuerier = .ok (s', r) ∧
        r.messages = [.delegate "v2" 10 "ujuno"] :=
    ⟨_, reachable_of_runCalls zeroDigest
      [⟨⟨1010, 150, "hub"⟩, v2Querier, "miner", .submitProof 0 "valoper"⟩] rfl rfl, _, _, rfl, rfl⟩
  exact ⟨s, hp, s', r, h, hmsgs, reinvest_fills_widest_deficit h⟩

end LiquidStaking.Hub
