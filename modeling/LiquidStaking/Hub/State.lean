import LiquidStaking.Chain
import LiquidStaking.Store

/-! The persisted state of the hub contract (`contracts/hub`) and its instantiation. Every
`Item` and `Map` of the store is one field; the maps are keyed lists (`Store`), and
`State.miningPower` is `validator_mining_powers.may_load(v).unwrap_or_default()`. Besides its
messages, a response records the unbond requests a withdrawal paid, each with the amount it added
to the call's single bank transfer: a record of the model, not of the code, over which what each
request is paid is stated. -/

namespace LiquidStaking.Hub

structure PendingBatch where
  id : Nat
  usteakToBurn : Nat
  estUnbondStartTime : Nat
  deriving DecidableEq, Repr

structure Batch where
  id : Nat
  reconciled : Bool
  totalShares : Nat
  amountUnclaimed : Nat
  estUnbondEndTime : Nat
  deriving DecidableEq, Repr

structure UnbondRequest where
  id : Nat
  user : Addr
  shares : Nat
  deriving DecidableEq, Repr

def UnbondRequest.key (r : UnbondRequest) : Nat × Addr := (r.id, r.user)

inductive FeeType where
  | wallet
  | feeSplit
  deriving DecidableEq, Repr

/-- Modelled from the spec: `FeeType::from_str` of the absent `pfc_steak` package. -/
def FeeType.fromStr : String → Option FeeType
  | "Wallet" => some .wallet
  | "FeeSplit" => some .feeSplit
  | _ => none

structure State where
  owner : Addr
  newOwner : Option Addr
  steakToken : Option Addr
  denom : String
  epochPeriod : Nat
  unbondPeriod : Nat
  validators : List String
  validatorsActive : List String
  unlockedCoins : List Coin
  prevDenom : Nat
  feeRate : Decimal
  maxFeeRate : Decimal
  feeAccount : Addr
  feeAccountType : FeeType
  pendingBatch : PendingBatch
  previousBatches : List Batch
  unbondRequests : List UnbondRequest
  minerEntropy : String
  minerEntropyDraft : String
  minerDifficulty : Nat
  minerLastMinedTimestamp : Nat
  minerLastMinedBlock : Nat
  totalMiningPower : Nat
  validatorMiningPowers : List (String × Nat)

def State.miningPower (s : State) (v : String) : Nat :=
  ((Store.load Prod.fst s.validatorMiningPowers v).map (·.2)).getD 0

structure Refund where
  request : UnbondRequest
  amount : Nat
  deriving DecidableEq, Repr

structure Response where
  messages : List CosmosMsg := []
  refunds : List Refund := []

structure InstantiateMsg where
  owner : Addr
  epochPeriod : Nat
  unbondPeriod : Nat
  validators : List String
  denom : String
  maxFeeAmount : Decimal
  feeAmount : Decimal
  feeAccountType : String
  feeAccount : Addr

/-- Modelled from the spec: `State::assert_owner`, the owner-authorization check. -/
def assertOwner (s : State) (sender : Addr) : Except StdError Unit :=
  if sender = s.owner then pure () else .error (.genericErr "unauthorized: sender is not owner")

theorem assertOwner_eq_ok {s : State} {sender : Addr} {u : Unit} :
    assertOwner s sender = .ok u ↔ sender = s.owner := by
  unfold assertOwner
  split <;> simp_all [pure, Except.pure]

def instantiate (env : Env) (msg : InstantiateMsg) : Except StdError State := do
  if msg.maxFeeAmount.atomics > Decimal.one.atomics then
    throw (.genericErr "Max fee can not exceed 1/100%")
  if msg.feeAmount.atomics > msg.maxFeeAmount.atomics then
    throw (.genericErr "fee can not exceed max fee")
  let some feeType := FeeType.fromStr msg.feeAccountType
    | throw (.genericErr "Invalid Fee type: Wallet or FeeSplit only")
  pure {
    owner := msg.owner
    newOwner := none
    steakToken := none
    denom := msg.denom
    epochPeriod := msg.epochPeriod
    unbondPeriod := msg.unbondPeriod
    validators := msg.validators
    validatorsActive := msg.validators
    unlockedCoins := []
    prevDenom := 0
    feeRate := msg.feeAmount
    maxFeeRate := msg.maxFeeAmount
    feeAccount := msg.feeAccount
    feeAccountType := feeType
    pendingBatch := ⟨1, 0, env.time + msg.epochPeriod⟩
    previousBatches := []
    unbondRequests := []
    minerEntropy := env.contract
    minerEntropyDraft := env.contract
    minerDifficulty := 1
    minerLastMinedTimestamp := env.time
    minerLastMinedBlock := env.height
    totalMiningPower := 0
    validatorMiningPowers := [] }

theorem instantiate_eq_ok {env : Env} {msg : InstantiateMsg} {s : State}
    (h : instantiate env msg = .ok s) :
    msg.maxFeeAmount ≤ Decimal.one ∧ msg.feeAmount ≤ msg.maxFeeAmount ∧
      s.feeRate = msg.feeAmount ∧ s.maxFeeRate = msg.maxFeeAmount ∧
      s.validators = msg.validators ∧ s.validatorsActive = msg.validators ∧
      s.pendingBatch = ⟨1, 0, env.time + msg.epochPeriod⟩ ∧ s.previousBatches = [] ∧
      s.unbondRequests = [] ∧ s.minerDifficulty = 1 ∧ s.minerLastMinedTimestamp = env.time ∧
      s.minerLastMinedBlock = env.height ∧ s.totalMiningPower = 0 ∧
      s.validatorMiningPowers = [] := by
  unfold instantiate at h
  by_cases h1 : msg.maxFeeAmount.atomics > Decimal.one.atomics
  · simp [h1] at h
  by_cases h2 : msg.feeAmount.atomics > msg.maxFeeAmount.atomics
  · simp [h1, h2] at h
  cases hf : FeeType.fromStr msg.feeAccountType with
  | none => simp [h1, h2, hf] at h
  | some ft =>
    simp only [h1, h2, hf, ite_false] at h
    cases h
    exact ⟨Nat.not_lt.mp h1, Nat.not_lt.mp h2, rfl, rfl, rfl, rfl, rfl, rfl, rfl, rfl, rfl, rfl,
      rfl, rfl⟩

end LiquidStaking.Hub
