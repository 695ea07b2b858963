import LiquidStaking.Hub.State

/-! Bonding and harvesting in the hub: `bond`, `harvest`, `reinvest`, the replies that
register received coins and the Steak token, and `rebalance`. What `bond` delegates is what
`parse_received_fund`, in `helpers.rs`, which is not in the sources, reads from the funds sent
with the call. `bond` searches the delegations for the smallest one, which a later validator
replaces only when strictly smaller; `reinvest` scans them with a running best, which a later
validator replaces when its target compares greater to its delegation in Rust's order on
`Ordering` (`Less < Equal < Greater`), or when its delegation is below target by a wider gap. The
redelegations of `rebalance` come from `compute_redelegations_for_rebalancing`, in the hub's
`math.rs`; what the call stores is the balance snapshot. -/

namespace LiquidStaking.Hub

variable {s s' : State} {sender : Addr} {r : Response} {env : Env} {q : Querier}

def parseCoinReceivingEvent (env : Env) (event : Event) : Except StdError (List Coin) := do
  let some receiver := event.attribute "receiver"
    | throw (.genericErr "cannot find `receiver` attribute")
  let some amountStr := event.attribute "amount"
    | throw (.genericErr "cannot find `amount` attribute")
  if receiver = env.contract then Coins.fromStr amountStr else pure []

def registerReceivedCoins (s : State) (env : Env) (events : List Event) :
    Except StdError (State × Response) := do
  let events := events.filter (·.ty = "coin_received")
  if events.isEmpty then return (s, {})
  let receivedCoins ← events.foldlM
    (fun acc event => do Coins.addMany acc (← parseCoinReceivingEvent env event)) []
  let unlockedCoins ← Coins.addMany s.unlockedCoins receivedCoins
  pure ({ s with unlockedCoins }, {})

theorem registerReceivedCoins_ok {events : List Event}
    (h : registerReceivedCoins s env events = .ok (s', r)) :
    s' = { s with unlockedCoins := s'.unlockedCoins } ∧ r = {} := by
  unfold registerReceivedCoins at h
  dsimp only at h
  split at h
  · cases h; exact ⟨rfl, rfl⟩
  · simp only [bind_eq_ok, pure, Except.pure, Except.ok.injEq, Prod.mk.injEq] at h
    obtain ⟨-, -, _, -, _, -, rfl, rfl⟩ := h
    exact ⟨rfl, rfl⟩

def registerSteakToken (s : State) (events : List Event) : Except StdError (State × Response) := do
  let some event := events.find? (·.ty = "instantiate")
    | throw (.genericErr "cannot find `instantiate` event")
  let some contractAddr := event.attribute "_contract_address"
    | throw (.genericErr "cannot find `_contract_address` attribute")
  pure ({ s with steakToken := some contractAddr }, {})

theorem registerSteakToken_ok {events : List Event}
    (h : registerSteakToken s events = .ok (s', r)) :
    s' = { s with steakToken := s'.steakToken } ∧ r = {} := by
  unfold registerSteakToken at h
  cases he : events.find? (·.ty = "instantiate") with
  | none => simp [he] at h
  | some e =>
    cases ha : e.attribute "_contract_address" with
    | none => simp [he, ha] at h
    | some a =>
      simp only [he, ha] at h
      cases h; exact ⟨rfl, rfl⟩

def minDelegation (best : String × Nat) : List Delegation → String × Nat
  | [] => best
  | d :: ds => minDelegation (if d.amount < best.2 then (d.validator, d.amount) else best) ds

def bond (s : State) (_env : Env) (q : Querier) (receiver : Addr) (amountToBond : Nat) :
    Except StdError (State × Response) := do
  let some steakToken := s.steakToken | throw (.notFound "cosmwasm_std::addresses::Addr")
  let delegations := queryDelegations q s.validatorsActive s.denom
  let d₀ :: rest := delegations
    | throw (.panic "index out of bounds: the len is 0 but the index is 0")
  let validator := (minDelegation (d₀.validator, d₀.amount) rest).1
  let usteakToMint ← computeMintAmount q.steakSupply amountToBond delegations
  pure ({ s with prevDenom := q.balance s.denom },
    { messages := [.delegate validator amountToBond s.denom, .mint steakToken receiver usteakToMint] })

theorem bond_ok {receiver : Addr} {amount : Nat} (h : bond s env q receiver amount = .ok (s', r)) :
    s' = { s with prevDenom := q.balance s.denom } ∧
    r.refunds = [] := by
  unfold bond at h
  cases hst : s.steakToken <;> cases hd : queryDelegations q s.validatorsActive s.denom <;>
    simp only [hst, hd, throw_eq_error, reduceCtorEq, bind_eq_ok] at h
  obtain ⟨m, -, h⟩ := h
  cases h; exact ⟨rfl, rfl⟩

def harvest (s : State) (env : Env) (q : Querier) (sender : Addr) :
    Except StdError (State × Response) := do
  if sender ≠ env.contract then
    throw (.genericErr "only the contract itself can harvest rewards for DPOW")
  pure ({ s with prevDenom := q.balance s.denom },
    { messages := q.allDelegations.map .withdrawDelegatorReward ++ [.reinvestCallback] })

theorem harvest_ok (h : harvest s env q sender = .ok (s', r)) :
    sender = env.contract ∧ s' = { s with prevDenom := q.balance s.denom } ∧
      r = { messages := q.allDelegations.map .withdrawDelegatorReward ++ [.reinvestCallback] } := by
  unfold harvest at h
  by_cases hs : sender = env.contract <;> simp_all [pure, Except.pure]

def absDiff (a b : Nat) : Nat := if b ≤ a then a - b else b - a

def orderingRank : Ordering → Nat
  | .lt => 0
  | .eq => 1
  | .gt => 2

def reinvestScan (s : State) (totalBonded : Nat) (best : String × Ordering × Nat) :
    List Delegation → Except StdError (String × Ordering × Nat)
  | [] => pure best
  | d :: ds => do
    let currentTd ← computeTargetDelegationFromMiningPower totalBonded (s.miningPower d.validator)
      s.totalMiningPower
    let currentDiff := absDiff currentTd d.amount
    let currentCmp := compare currentTd d.amount
    let best :=
      if orderingRank currentCmp > orderingRank best.2.1 ||
          (currentCmp == .gt && currentDiff > best.2.2) then
        (d.validator, currentCmp, currentDiff)
      else best
    reinvestScan s totalBonded best ds

def reinvestFee (fee : Decimal) (amountToBond : Nat) : Except StdError Nat :=
  if fee.isZero then pure 0 else fee.checkedMulUint amountToBond

def feeMsgs (s : State) (feeAmount : Nat) : List CosmosMsg :=
  if feeAmount > 0 then
    match s.feeAccountType with
    | .wallet => [.bankSend s.feeAccount feeAmount s.denom]
    | .feeSplit => [.feeSplitDeposit s.feeAccount feeAmount s.denom]
  else []

def reinvest (s : State) (_env : Env) (q : Querier) : Except StdError (State × Response) := do
  let currentCoin := q.balance s.denom
  if currentCoin ≤ s.prevDenom then throw (.genericErr "no rewards")
  let amountToBond := currentCoin - s.prevDenom
  let delegations := queryDelegations q s.validatorsActive s.denom
  let totalBonded := totalDelegated delegations
  let d₀ :: rest := delegations
    | throw (.panic "index out of bounds: the len is 0 but the index is 0")
  let targetDelegation ← computeTargetDelegationFromMiningPower totalBonded
    (s.miningPower d₀.validator) s.totalMiningPower
  let cmp := compare targetDelegation d₀.amount
  let diff := if cmp == .gt then absDiff targetDelegation d₀.amount else 0
  let best ← reinvestScan s totalBonded (d₀.validator, cmp, diff) rest
  let feeAmount ← reinvestFee s.feeRate amountToBond
  let amountToBondMinusFees := amountToBond - feeAmount
  pure ({ s with unlockedCoins := s.unlockedCoins.filter (·.denom ≠ s.denom) },
    { messages := .delegate best.1 amountToBondMinusFees s.denom :: feeMsgs s feeAmount })

theorem reinvest_ok (h : reinvest s env q = .ok (s', r)) :
    s.prevDenom < q.balance s.denom ∧ ∃ validator feeAmount,
      reinvestFee s.feeRate (q.balance s.denom - s.prevDenom) = .ok feeAmount ∧
      r.messages = .delegate validator (q.balance s.denom - s.prevDenom - feeAmount) s.denom ::
        feeMsgs s feeAmount ∧
      s' = { s with unlockedCoins := s.unlockedCoins.filter (·.denom ≠ s.denom) } ∧
    r.refunds = [] := by
  unfold reinvest at h
  by_cases hc : q.balance s.denom ≤ s.prevDenom
  · simp [hc] at h
  cases hd : queryDelegations q s.validatorsActive s.denom with
  | nil => simp [hc, hd] at h
  | cons d₀ rest =>
    simp only [hc, hd, ite_false, bind_eq_ok, pure, Except.pure, Except.ok.injEq,
      Prod.mk.injEq] at h
    obtain ⟨-, -, -, -, b, -, f, hf, rfl, rfl⟩ := h
    exact ⟨Nat.lt_of_not_le hc, b.1, f, hf, rfl, rfl, rfl⟩

def rebalance (s : State) (_env : Env) (q : Querier) (_minimum : Nat) :
    Except StdError (State × Response) :=
  pure ({ s with prevDenom := q.balance s.denom }, {})

theorem rebalance_ok {m : Nat} (h : rebalance s env q m = .ok (s', r)) :
    s' = { s with prevDenom := q.balance s.denom } ∧ r = {} := by
  cases h; exact ⟨rfl, rfl⟩

end LiquidStaking.Hub
