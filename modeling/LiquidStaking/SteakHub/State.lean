import LiquidStaking.Hub.Bonding

/-! The first version of the contract, `contracts/steak-hub`: the same batched unbonding, with
no reconciliation, and a harvest that swaps every reward into `uluna` before reinvesting it. The
pending-batch, unbond-request and response records are the ones the hub kept. -/

namespace LiquidStaking.SteakHub

open Hub (PendingBatch UnbondRequest Refund Response)

structure Batch where
  id : Nat
  totalShares : Nat
  ulunaUnclaimed : Nat
  estUnbondEndTime : Nat
  deriving DecidableEq, Repr

structure State where
  steakToken : Option Addr
  workers : List Addr
  validators : List String
  epochPeriod : Nat
  unbondPeriod : Nat
  unlockedCoins : List Coin
  pendingBatch : PendingBatch
  previousBatches : List Batch
  unbondRequests : List UnbondRequest

structure InstantiateMsg where
  workers : List Addr
  validators : List String
  epochPeriod : Nat
  unbondPeriod : Nat

def instantiate (env : Env) (msg : InstantiateMsg) : State where
  steakToken := none
  workers := msg.workers
  validators := msg.validators
  epochPeriod := msg.epochPeriod
  unbondPeriod := msg.unbondPeriod
  unlockedCoins := []
  pendingBatch := ⟨1, 0, env.time + msg.epochPeriod⟩
  previousBatches := []
  unbondRequests := []

/-- Modelled from the spec: `compute_delegations` of the absent `math.rs`, following the
selector of spec section 4.2, the whole amount to the validator with the smallest delegation,
the first one on a tie. The note above the hub's `bond` (`hub/src/execute.rs` lines 157-159)
says an earlier implementation split each deposit over all validators, which this contract may
be; the sum delegated is the amount either way. -/
def computeDelegations (amount : Nat) : List Delegation → List Delegation
  | [] => []
  | d :: ds => [⟨(Hub.minDelegation (d.validator, d.amount) ds).1, amount, "uluna"⟩]

def delegateMsgs (ds : List Delegation) : List CosmosMsg :=
  ds.map fun d => .delegate d.validator d.amount d.denom

def registerSteakToken (s : State) (events : List Event) : Except StdError (State × Response) := do
  let some event := events.find? (·.ty = "instantiate_contract")
    | throw (.genericErr "cannot find `instantiate_contract` event")
  let some contractAddr := event.attribute "contract_address"
    | throw (.genericErr "cannot find `contract_address` attribute")
  pure ({ s with steakToken := some contractAddr }, {})

def bond (s : State) (_env : Env) (q : Querier) (stakerAddr : Addr) (ulunaToBond : Nat) :
    Except StdError (State × Response) := do
  let some steakToken := s.steakToken | throw (.notFound "cosmwasm_std::addresses::Addr")
  let delegations := queryDelegations q s.validators "uluna"
  let usteakToMint ← computeMintAmount q.steakSupply ulunaToBond delegations
  let newDelegations := computeDelegations ulunaToBond delegations
  pure (s, { messages := delegateMsgs newDelegations ++ [.mint steakToken stakerAddr usteakToMint] })

section
variable {s s' : State} {env : Env} {q : Querier} {r : Response}

theorem registerSteakToken_ok {events : List Event} (h : registerSteakToken s events = .ok (s', r)) :
    s' = { s with steakToken := s'.steakToken } ∧ r = {} := by
  unfold registerSteakToken at h
  cases he : events.find? (·.ty = "instantiate_contract") with
  | none => simp [he] at h
  | some e =>
    cases ha : e.attribute "contract_address" with
    | none => simp [he, ha] at h
    | some a =>
      simp only [he, ha] at h
      cases h; exact ⟨rfl, rfl⟩

theorem bond_ok {stakerAddr : Addr} {ulunaToBond : Nat}
    (h : bond s env q stakerAddr ulunaToBond = .ok (s', r)) :
    ∃ steakToken usteakToMint, s.steakToken = some steakToken ∧ s' = s ∧
      r = { messages := delegateMsgs (computeDelegations ulunaToBond
        (queryDelegations q s.validators "uluna")) ++ [.mint steakToken stakerAddr usteakToMint] } := by
  unfold bond at h
  cases ht : s.steakToken with
  | none => simp [ht] at h
  | some token =>
    simp only [ht, bind_eq_ok, pure, Except.pure, Except.ok.injEq, Prod.mk.injEq] at h
    obtain ⟨m, -, rfl, rfl⟩ := h
    exact ⟨token, m, rfl, rfl, rfl⟩

end

end LiquidStaking.SteakHub
