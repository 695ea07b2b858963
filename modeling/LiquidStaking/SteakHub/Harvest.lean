import LiquidStaking.SteakHub.State

/-! Harvesting in the steak hub. The rewards arrive in several denoms and are recorded by
`register_received_coins`; `swap` offers all but `uluna` for `uluna`; `reinvest` delegates the
`uluna`. Where the hub's `reinvest` drops the entry it delegates, this one keeps only that entry,
so the same `uluna` is delegated again by every later `reinvest`. -/

namespace LiquidStaking.SteakHub

open Hub (Response)

variable {s s' : State} {env : Env} {q : Querier} {r : Response}

def harvest (s : State) (_env : Env) (q : Querier) (workerAddr : Addr) :
    Except StdError (State × Response) := do
  if !s.workers.contains workerAddr then
    throw (.genericErr "sender is not a whitelisted worker")
  pure (s, { messages := q.allDelegations.map .withdrawDelegatorReward ++
    [.swapCallback, .reinvestCallback] })

def swap (s : State) (_env : Env) : Except StdError (State × Response) :=
  let coinsToOffer := s.unlockedCoins.filter (·.denom ≠ "uluna")
  pure ({ s with unlockedCoins := s.unlockedCoins.filter (·.denom = "uluna") },
    { messages := coinsToOffer.map fun c => .swap c "uluna" })

def reinvest (s : State) (_env : Env) (q : Querier) : Except StdError (State × Response) := do
  let some coin := s.unlockedCoins.find? (·.denom = "uluna")
    | throw (.genericErr "no uluna available to be bonded")
  let ulunaToBond := coin.amount
  let delegations := queryDelegations q s.validators "uluna"
  let newDelegations := computeDelegations ulunaToBond delegations
  pure ({ s with unlockedCoins := s.unlockedCoins.filter (·.denom = "uluna") },
    { messages := delegateMsgs newDelegations })

def registerReceivedCoins (s : State) (env : Env) (events : List Event) :
    Except StdError (State × Response) := do
  let some event := events.find? (·.ty = "coin_received")
    | throw (.genericErr "cannot find `coin_received` event")
  let some receiver := event.attribute "receiver"
    | throw (.genericErr "cannot find `receiver` attribute")
  let some coinsReceivedStr := event.attribute "amount"
    | throw (.genericErr "cannot find `amount` attribute")
  let coinsReceived ← if receiver = env.contract then Coins.fromStr coinsReceivedStr else pure []
  let unlockedCoins ← Coins.addMany s.unlockedCoins coinsReceived
  pure ({ s with unlockedCoins }, {})

theorem harvest_ok {workerAddr : Addr} (h : harvest s env q workerAddr = .ok (s', r)) :
    workerAddr ∈ s.workers ∧ s' = s ∧
      r = { messages := q.allDelegations.map .withdrawDelegatorReward ++
        [.swapCallback, .reinvestCallback] } := by
  unfold harvest at h
  by_cases hw : workerAddr ∈ s.workers
  · simp only [List.elem_eq_mem, hw, decide_True, Bool.not_true, Bool.false_eq_true, ite_false,
      pure, Except.pure, Except.ok.injEq, Prod.mk.injEq] at h
    obtain ⟨rfl, rfl⟩ := h
    exact ⟨hw, rfl, rfl⟩
  · simp [hw] at h

theorem swap_ok (h : swap s env = .ok (s', r)) :
    s' = { s with unlockedCoins := s.unlockedCoins.filter (·.denom = "uluna") } ∧
      r = { messages := (s.unlockedCoins.filter (·.denom ≠ "uluna")).map fun c => .swap c "uluna" } := by
  cases h
  exact ⟨rfl, rfl⟩

theorem registerReceivedCoins_ok {events : List Event}
    (h : registerReceivedCoins s env events = .ok (s', r)) :
    s' = { s with unlockedCoins := s'.unlockedCoins } ∧ r = {} := by
  unfold registerReceivedCoins at h
  cases he : events.find? (·.ty = "coin_received") with
  | none => simp [he] at h
  | some e =>
    cases hr : e.attribute "receiver" with
    | none => simp [he, hr] at h
    | some receiver =>
      cases ha : e.attribute "amount" with
      | none => simp [he, hr, ha] at h
      | some amount =>
        simp only [he, hr, ha] at h
        split at h <;>
        · simp only [bind_eq_ok, pure, Except.pure, Except.ok.injEq, Prod.mk.injEq] at h
          obtain ⟨-, -, _, -, rfl, rfl⟩ := h
          exact ⟨rfl, rfl⟩

def delegatedUluna (r : Response) : Nat :=
  (r.messages.map fun
    | .delegate _ amount "uluna" => amount
    | _ => 0).sum

theorem reinvest_of_find {c : Coin} (hc : s.unlockedCoins.find? (·.denom = "uluna") = some c) :
    reinvest s env q = .ok ({ s with unlockedCoins := s.unlockedCoins.filter (·.denom = "uluna") },
      { messages := delegateMsgs (computeDelegations c.amount
        (queryDelegations q s.validators "uluna")) }) := by
  unfold reinvest
  rw [hc]
  rfl

theorem reinvest_ok (h : reinvest s env q = .ok (s', r)) :
    ∃ c, s.unlockedCoins.find? (·.denom = "uluna") = some c ∧
      r = { messages := delegateMsgs (computeDelegations c.amount
        (queryDelegations q s.validators "uluna")) } ∧
      s' = { s with unlockedCoins := s.unlockedCoins.filter (·.denom = "uluna") } := by
  cases hc : s.unlockedCoins.find? (·.denom = "uluna") with
  | none => simp [reinvest, hc] at h
  | some c =>
    rw [reinvest_of_find hc, Except.ok.injEq, Prod.mk.injEq] at h
    exact ⟨c, rfl, h.2.symm, h.1.symm⟩

theorem find_filter_uluna (cs : List Coin) :
    (cs.filter (·.denom = "uluna")).find? (·.denom = "uluna") = cs.find? (·.denom = "uluna") := by
  induction cs with
  | nil => rfl
  | cons c cs ih => by_cases hc : c.denom = "uluna" <;> simp [List.filter_cons, hc, ih]

theorem reinvest_repeats (h : reinvest s env q = .ok (s', r)) (env' : Env) (q' : Querier) :
    s'.unlockedCoins.find? (·.denom = "uluna") = s.unlockedCoins.find? (·.denom = "uluna") ∧
    ∃ s'' r', reinvest s' env' q' = .ok (s'', r') ∧
      (q'.delegation = q.delegation → r' = r) := by
  obtain ⟨c, hc, rfl, rfl⟩ := reinvest_ok h
  have hc' : (s.unlockedCoins.filter (·.denom = "uluna")).find? (·.denom = "uluna") = some c := by
    rw [find_filter_uluna, hc]
  refine ⟨hc'.trans hc.symm, _, _, reinvest_of_find hc', fun hq => ?_⟩
  simp only [queryDelegations, hq]

end LiquidStaking.SteakHub
