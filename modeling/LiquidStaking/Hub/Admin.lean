import LiquidStaking.Hub.State

/-! Ownership and management in the hub: the validator roster (the whitelist `validators` and
its eligible part `validators_active`), ownership transfer, fees, the denom and the unbonding
period. `pushIfAbsent` is the `if !list.contains(&v) { list.push(v) }` of the roster calls. The
redelegations that evacuate a removed validator come from `compute_redelegations_for_removal`,
in the hub's `math.rs`, which is not in the sources, and are left out. -/

namespace LiquidStaking.Hub

variable {s s' : State} {sender : Addr} {r : Response}

def pushIfAbsent (xs : List String) (v : String) : List String :=
  if xs.contains v then xs else xs ++ [v]

def addValidator (s : State) (sender : Addr) (validator : String) :
    Except StdError (State × Response) := do
  assertOwner s sender
  if s.validators.contains validator then throw (.genericErr "validator is already whitelisted")
  pure ({ s with
      validators := s.validators ++ [validator]
      validatorsActive := pushIfAbsent s.validatorsActive validator }, {})

theorem addValidator_ok {v : String} (h : addValidator s sender v = .ok (s', r)) :
    sender = s.owner ∧ v ∉ s.validators ∧ s' = { s with
      validators := s.validators ++ [v]
      validatorsActive := pushIfAbsent s.validatorsActive v } ∧
    r = {} := by
  unfold addValidator assertOwner at h
  by_cases ho : sender = s.owner <;> by_cases hv : v ∈ s.validators <;> simp_all [pure, Except.pure]

def removeValidator (s : State) (_env : Env) (q : Querier) (sender : Addr) (validator : String) :
    Except StdError (State × Response) := do
  assertOwner s sender
  if !s.validators.contains validator then
    throw (.genericErr "validator is not already whitelisted")
  pure ({ s with
      validators := s.validators.filter (· ≠ validator)
      validatorsActive := pushIfAbsent s.validatorsActive validator
      prevDenom := q.balance s.denom }, {})

theorem removeValidator_ok {env : Env} {q : Querier} {v : String}
    (h : removeValidator s env q sender v = .ok (s', r)) :
    sender = s.owner ∧ v ∈ s.validators ∧ s' = { s with
      validators := s.validators.filter (· ≠ v)
      validatorsActive := pushIfAbsent s.validatorsActive v
      prevDenom := q.balance s.denom } ∧
    r = {} := by
  unfold removeValidator assertOwner at h
  by_cases ho : sender = s.owner <;> by_cases hv : v ∈ s.validators <;> simp_all [pure, Except.pure]

def removeValidatorEx (s : State) (sender : Addr) (validator : String) :
    Except StdError (State × Response) := do
  assertOwner s sender
  if !s.validators.contains validator then
    throw (.genericErr "validator is not already whitelisted")
  pure ({ s with validators := s.validators.filter (· ≠ validator) }, {})

theorem removeValidatorEx_ok {v : String} (h : removeValidatorEx s sender v = .ok (s', r)) :
    sender = s.owner ∧ v ∈ s.validators ∧
      s' = { s with validators := s.validators.filter (· ≠ v) } ∧
    r = {} := by
  unfold removeValidatorEx assertOwner at h
  by_cases ho : sender = s.owner <;> by_cases hv : v ∈ s.validators <;> simp_all [pure, Except.pure]

def pauseValidator (s : State) (sender : Addr) (validator : String) :
    Except StdError (State × Response) := do
  assertOwner s sender
  if !s.validatorsActive.contains validator then
    throw (.genericErr "validator is not already whitelisted")
  pure ({ s with validatorsActive := s.validatorsActive.filter (· ≠ validator) }, {})

theorem pauseValidator_ok {v : String} (h : pauseValidator s sender v = .ok (s', r)) :
    sender = s.owner ∧ v ∈ s.validatorsActive ∧
      s' = { s with validatorsActive := s.validatorsActive.filter (· ≠ v) } ∧
    r = {} := by
  unfold pauseValidator assertOwner at h
  by_cases ho : sender = s.owner <;> by_cases hv : v ∈ s.validatorsActive <;>
    simp_all [pure, Except.pure]

def unpauseValidator (s : State) (sender : Addr) (validator : String) :
    Except StdError (State × Response) := do
  assertOwner s sender
  pure ({ s with validatorsActive := pushIfAbsent s.validatorsActive validator }, {})

theorem unpauseValidator_ok {v : String} (h : unpauseValidator s sender v = .ok (s', r)) :
    sender = s.owner ∧ s' = { s with validatorsActive := pushIfAbsent s.validatorsActive v } ∧
    r = {} := by
  unfold unpauseValidator assertOwner at h
  by_cases ho : sender = s.owner <;> simp_all [pure, Except.pure]

def setUnbondPeriod (s : State) (sender : Addr) (unbondPeriod : Nat) :
    Except StdError (State × Response) := do
  assertOwner s sender
  pure ({ s with unbondPeriod }, {})

theorem setUnbondPeriod_ok {n : Nat} (h : setUnbondPeriod s sender n = .ok (s', r)) :
    sender = s.owner ∧ s' = { s with unbondPeriod := n } ∧
    r = {} := by
  unfold setUnbondPeriod assertOwner at h
  by_cases ho : sender = s.owner <;> simp_all [pure, Except.pure]

def transferOwnership (s : State) (sender : Addr) (newOwner : Addr) :
    Except StdError (State × Response) := do
  assertOwner s sender
  pure ({ s with newOwner := some newOwner }, {})

theorem transferOwnership_ok {a : Addr} (h : transferOwnership s sender a = .ok (s', r)) :
    sender = s.owner ∧ s' = { s with newOwner := some a } ∧
    r = {} := by
  unfold transferOwnership assertOwner at h
  by_cases ho : sender = s.owner <;> simp_all [pure, Except.pure]

def acceptOwnership (s : State) (sender : Addr) : Except StdError (State × Response) := do
  let some newOwner := s.newOwner | throw (.notFound "cosmwasm_std::addresses::Addr")
  if sender ≠ newOwner then throw (.genericErr "unauthorized: sender is not new owner")
  pure ({ s with owner := sender, newOwner := none }, {})

theorem acceptOwnership_ok (h : acceptOwnership s sender = .ok (s', r)) :
    s.newOwner = some sender ∧ s' = { s with owner := sender, newOwner := none } ∧
    r = {} := by
  unfold acceptOwnership at h
  cases hn : s.newOwner with
  | none => simp [hn] at h
  | some n => by_cases hs : sender = n <;> simp_all [pure, Except.pure]

def transferFeeAccount (s : State) (sender : Addr) (feeAccountType : String)
    (newFeeAccount : Addr) : Except StdError (State × Response) := do
  assertOwner s sender
  let some feeType := FeeType.fromStr feeAccountType
    | throw (.genericErr "Invalid Fee type: Wallet or FeeSplit only")
  pure ({ s with feeAccountType := feeType, feeAccount := newFeeAccount }, {})

theorem transferFeeAccount_ok {t : String} {a : Addr}
    (h : transferFeeAccount s sender t a = .ok (s', r)) :
    sender = s.owner ∧ ∃ ft, FeeType.fromStr t = some ft ∧
      s' = { s with feeAccountType := ft, feeAccount := a } ∧
    r = {} := by
  unfold transferFeeAccount assertOwner at h
  by_cases ho : sender = s.owner
  · cases hf : FeeType.fromStr t <;> simp_all [pure, Except.pure]
  · simp_all

def changeDenom (s : State) (sender : Addr) (newDenom : String) :
    Except StdError (State × Response) := do
  assertOwner s sender
  pure ({ s with denom := newDenom }, {})

theorem changeDenom_ok {d : String} (h : changeDenom s sender d = .ok (s', r)) :
    sender = s.owner ∧ s' = { s with denom := d } ∧
    r = {} := by
  unfold changeDenom assertOwner at h
  by_cases ho : sender = s.owner <;> simp_all [pure, Except.pure]

def updateFee (s : State) (sender : Addr) (newFee : Decimal) :
    Except StdError (State × Response) := do
  assertOwner s sender
  if newFee.atomics > s.maxFeeRate.atomics then
    throw (.genericErr "refusing to set fee above maximum set")
  pure ({ s with feeRate := newFee }, {})

theorem updateFee_ok {f : Decimal} (h : updateFee s sender f = .ok (s', r)) :
    sender = s.owner ∧ f ≤ s.maxFeeRate ∧ s' = { s with feeRate := f } ∧
    r = {} := by
  unfold updateFee assertOwner at h
  by_cases ho : sender = s.owner <;> by_cases hf : f.atomics > s.maxFeeRate.atomics <;>
    simp_all [pure, Except.pure, Decimal.le_def]

end LiquidStaking.Hub
