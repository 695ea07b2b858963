import LiquidStaking.Hub.Unbonding
import LiquidStaking.Hub.Mining
import LiquidStaking.Hub.Bonding
import LiquidStaking.Hub.Admin

/-! The hub as a state machine. A call is one entry point of `execute.rs`, with the arguments
the dispatch in `contract.rs` passes (the sender is the user of `withdraw_unbonded` and the owner
candidate of the owner-only calls; `register_*` are the replies to submessages), the block it
runs in and the host's answers to its queries. `Operation.Writes` lists the fields each call may
write; every other field keeps its value. A run starts from `instantiate` and makes successful
calls at blocks whose time and height never go back; a failed call changes nothing, so it is no
step at all. `runCalls` makes a list of calls in order, and fails as soon as one fails or its
block goes back. The sample run at the end: Alice queues 10 Steak; the batch is submitted once
its epoch is over, and reconciled once it has matured, with the 10 it unbonded received. -/

namespace LiquidStaking.Hub

inductive Operation where
  | bond (receiver : Addr) (amount : Nat)
  | harvest
  | reinvest
  | registerReceivedCoins (events : List Event)
  | registerSteakToken (events : List Event)
  | queueUnbond (receiver : Addr) (usteakToBurn : Nat)
  | submitBatch
  | reconcile
  | withdrawUnbonded (receiver : Addr)
  | withdrawUnbondedAdmin (receiver : Addr)
  | rebalance (minimum : Nat)
  | addValidator (validator : String)
  | removeValidator (validator : String)
  | removeValidatorEx (validator : String)
  | pauseValidator (validator : String)
  | unpauseValidator (validator : String)
  | setUnbondPeriod (unbondPeriod : Nat)
  | transferOwnership (newOwner : Addr)
  | acceptOwnership
  | transferFeeAccount (feeAccountType : String) (newFeeAccount : Addr)
  | changeDenom (newDenom : String)
  | updateFee (newFee : Decimal)
  | updateEntropy (entropy : String)
  | submitProof (nonce : Nat) (validatorAddress : String)

variable (sha256 : List UInt8 → Digest)

def execute (s : State) (env : Env) (q : Querier) (sender : Addr) :
    Operation → Except StdError (State × Response)
  | .bond receiver amount => bond s env q receiver amount
  | .harvest => harvest s env q sender
  | .reinvest => reinvest s env q
  | .registerReceivedCoins events => registerReceivedCoins s env events
  | .registerSteakToken events => registerSteakToken s events
  | .queueUnbond receiver usteakToBurn => queueUnbond s env receiver usteakToBurn
  | .submitBatch => submitBatch s env q
  | .reconcile => reconcile s env q
  | .withdrawUnbonded receiver => withdrawUnbonded s env sender receiver
  | .withdrawUnbondedAdmin receiver => withdrawUnbondedAdmin s env sender receiver
  | .rebalance minimum => rebalance s env q minimum
  | .addValidator validator => addValidator s sender validator
  | .removeValidator validator => removeValidator s env q sender validator
  | .removeValidatorEx validator => removeValidatorEx s sender validator
  | .pauseValidator validator => pauseValidator s sender validator
  | .unpauseValidator validator => unpauseValidator s sender validator
  | .setUnbondPeriod unbondPeriod => setUnbondPeriod s sender unbondPeriod
  | .transferOwnership newOwner => transferOwnership s sender newOwner
  | .acceptOwnership => acceptOwnership s sender
  | .transferFeeAccount feeAccountType newFeeAccount =>
    transferFeeAccount s sender feeAccountType newFeeAccount
  | .changeDenom newDenom => changeDenom s sender newDenom
  | .updateFee newFee => updateFee s sender newFee
  | .updateEntropy entropy => updateEntropy sha256 s env entropy
  | .submitProof nonce validatorAddress => submitProof sha256 s env q sender nonce validatorAddress

def Operation.Writes : Operation → State → State → Prop
  | .bond .., s, s' | .harvest, s, s' | .rebalance _, s, s' =>
    s' = { s with prevDenom := s'.prevDenom }
  | .reinvest, s, s' | .registerReceivedCoins _, s, s' =>
    s' = { s with unlockedCoins := s'.unlockedCoins }
  | .registerSteakToken _, s, s' => s' = { s with steakToken := s'.steakToken }
  | .queueUnbond .., s, s' =>
    s' = { s with pendingBatch := s'.pendingBatch, unbondRequests := s'.unbondRequests }
  | .submitBatch, s, s' => s' = { s with
      previousBatches := s'.previousBatches, pendingBatch := s'.pendingBatch
      prevDenom := s'.prevDenom }
  | .reconcile, s, s' => s' = { s with previousBatches := s'.previousBatches }
  | .withdrawUnbonded _, s, s' | .withdrawUnbondedAdmin _, s, s' =>
    s' = { s with previousBatches := s'.previousBatches, unbondRequests := s'.unbondRequests }
  | .addValidator _, s, s' | .removeValidatorEx _, s, s' | .pauseValidator _, s, s'
  | .unpauseValidator _, s, s' =>
    s' = { s with validators := s'.validators, validatorsActive := s'.validatorsActive }
  | .removeValidator _, s, s' => s' = { s with
      validators := s'.validators, validatorsActive := s'.validatorsActive
      prevDenom := s'.prevDenom }
  | .setUnbondPeriod _, s, s' => s' = { s with unbondPeriod := s'.unbondPeriod }
  | .transferOwnership _, s, s' | .acceptOwnership, s, s' =>
    s' = { s with owner := s'.owner, newOwner := s'.newOwner }
  | .transferFeeAccount .., s, s' =>
    s' = { s with feeAccountType := s'.feeAccountType, feeAccount := s'.feeAccount }
  | .changeDenom _, s, s' => s' = { s with denom := s'.denom }
  | .updateFee _, s, s' => s' = { s with feeRate := s'.feeRate }
  | .updateEntropy _, s, s' => s' = { s with
      minerEntropyDraft := s'.minerEntropyDraft, minerDifficulty := s'.minerDifficulty }
  | .submitProof .., s, s' => s' = { s with
      validatorMiningPowers := s'.validatorMiningPowers, totalMiningPower := s'.totalMiningPower
      minerEntropy := s'.minerEntropy, minerEntropyDraft := s'.minerEntropyDraft
      minerDifficulty := s'.minerDifficulty
      minerLastMinedTimestamp := s'.minerLastMinedTimestamp
      minerLastMinedBlock := s'.minerLastMinedBlock
      feeAccountType := s'.feeAccountType, feeAccount := s'.feeAccount }

def Operation.withdraws : Operation → Bool
  | .withdrawUnbonded _ | .withdrawUnbondedAdmin _ => true
  | _ => false

section
variable {s s' : State} {env : Env} {q : Querier} {sender : Addr} {r : Response}

theorem execute_writes {op : Operation} (h : execute sha256 s env q sender op = .ok (s', r)) :
    op.Writes s s' ∧ (r.refunds = [] ∨ op.withdraws) := by
  cases op <;> simp only [execute] at h <;> simp only [Operation.Writes, Operation.withdraws,
    Bool.false_eq_true, or_false, or_true, and_true]
  case bond => obtain ⟨rfl, hr⟩ := bond_ok h; exact ⟨rfl, hr⟩
  case harvest => obtain ⟨-, rfl, rfl⟩ := harvest_ok h; exact ⟨rfl, rfl⟩
  case reinvest => obtain ⟨-, -, -, -, -, rfl, hr⟩ := reinvest_ok h; exact ⟨rfl, hr⟩
  case registerReceivedCoins => obtain ⟨hs, rfl⟩ := registerReceivedCoins_ok h; exact ⟨hs, rfl⟩
  case registerSteakToken => obtain ⟨hs, rfl⟩ := registerSteakToken_ok h; exact ⟨hs, rfl⟩
  case queueUnbond => obtain ⟨rfl, hr⟩ := queueUnbond_ok h; exact ⟨rfl, hr⟩
  case submitBatch => obtain ⟨-, -, -, rfl, hr⟩ := submitBatch_ok h; exact ⟨rfl, hr⟩
  case reconcile => obtain ⟨rfl, rfl⟩ := reconcile_ok h; exact ⟨rfl, rfl⟩
  case withdrawUnbonded => exact withdrawUnbonded_frame h
  case withdrawUnbondedAdmin => exact withdrawUnbonded_frame (withdrawUnbondedAdmin_ok h).2
  case rebalance => obtain ⟨rfl, rfl⟩ := rebalance_ok h; exact ⟨rfl, rfl⟩
  case addValidator => obtain ⟨-, -, rfl, rfl⟩ := addValidator_ok h; exact ⟨rfl, rfl⟩
  case removeValidator => obtain ⟨-, -, rfl, rfl⟩ := removeValidator_ok h; exact ⟨rfl, rfl⟩
  case removeValidatorEx => obtain ⟨-, -, rfl, rfl⟩ := removeValidatorEx_ok h; exact ⟨rfl, rfl⟩
  case pauseValidator => obtain ⟨-, -, rfl, rfl⟩ := pauseValidator_ok h; exact ⟨rfl, rfl⟩
  case unpauseValidator => obtain ⟨-, rfl, rfl⟩ := unpauseValidator_ok h; exact ⟨rfl, rfl⟩
  case setUnbondPeriod => obtain ⟨-, rfl, rfl⟩ := setUnbondPeriod_ok h; exact ⟨rfl, rfl⟩
  case transferOwnership => obtain ⟨-, rfl, rfl⟩ := transferOwnership_ok h; exact ⟨rfl, rfl⟩
  case acceptOwnership => obtain ⟨-, rfl, rfl⟩ := acceptOwnership_ok h; exact ⟨rfl, rfl⟩
  case transferFeeAccount =>
    obtain ⟨-, -, -, rfl, rfl⟩ := transferFeeAccount_ok h; exact ⟨rfl, rfl⟩
  case changeDenom => obtain ⟨-, rfl, rfl⟩ := changeDenom_ok h; exact ⟨rfl, rfl⟩
  case updateFee => obtain ⟨-, -, rfl, rfl⟩ := updateFee_ok h; exact ⟨rfl, rfl⟩
  case updateEntropy =>
    obtain ⟨hd, rfl⟩ := updateEntropy_ok sha256 h
    rw [(updateDifficulty_ok hd).2.1]
    exact ⟨rfl, rfl⟩
  case submitProof =>
    obtain ⟨v, s₁, -, -, -, h₁, -, -, rfl, rfl⟩ := submitProof_ok sha256 h
    rw [(updateDifficulty_ok h₁).2.1]
    exact ⟨rfl, rfl⟩

end

inductive Step : Env × State → Operation → Response → Env × State → Prop
  | call {env : Env} {s s' : State} {r : Response} (env' : Env) (q : Querier) (sender : Addr)
      (op : Operation) (htime : env.time ≤ env'.time) (hheight : env.height ≤ env'.height)
      (hcontract : env'.contract = env.contract)
      (h : execute sha256 s env' q sender op = .ok (s', r)) : Step (env, s) op r (env', s')

def Run (allowed : Operation → Prop) : Env × State → Env × State → Prop :=
  Relation.ReflTransGen fun p p' => ∃ op r, allowed op ∧ Step sha256 p op r p'

def Reachable (allowed : Operation → Prop) (msg : InstantiateMsg) (env₀ : Env)
    (p : Env × State) : Prop :=
  ∃ s₀, instantiate env₀ msg = .ok s₀ ∧ Run sha256 allowed (env₀, s₀) p

inductive Trace : Env × State → List Response → Env × State → Prop
  | nil (p : Env × State) : Trace p [] p
  | snoc {p p' p'' : Env × State} {rs : List Response} {op : Operation} {r : Response} :
      Trace p rs p' → Step sha256 p' op r p'' → Trace p (rs ++ [r]) p''

section
variable {allowed : Operation → Prop} {msg : InstantiateMsg} {env₀ : Env}

theorem Reachable.induction {P : Env × State → Prop}
    (hinit : ∀ s₀, instantiate env₀ msg = .ok s₀ → P (env₀, s₀))
    (hstep : ∀ p op r p', allowed op → P p → Step sha256 p op r p' → P p')
    {p : Env × State} (hp : Reachable sha256 allowed msg env₀ p) : P p := by
  obtain ⟨s₀, h₀, hrun⟩ := hp
  induction hrun with
  | refl => exact hinit s₀ h₀
  | tail _ hst ih =>
    obtain ⟨op, r, hop, hst⟩ := hst
    exact hstep _ op r _ hop ih hst

theorem Reachable.step {p p' : Env × State} {op : Operation} {r : Response}
    (hp : Reachable sha256 allowed msg env₀ p) (hop : allowed op) (hst : Step sha256 p op r p') :
    Reachable sha256 allowed msg env₀ p' :=
  let ⟨s₀, h₀, hrun⟩ := hp
  ⟨s₀, h₀, hrun.tail ⟨op, r, hop, hst⟩⟩

theorem Reachable.instantiate {s₀ : State} (h : instantiate env₀ msg = .ok s₀) :
    Reachable sha256 allowed msg env₀ (env₀, s₀) :=
  ⟨s₀, h, .refl⟩

theorem Reachable.run_induction {P : Env × State → Prop} {p p' : Env × State}
    (hp : Reachable sha256 (fun _ => True) msg env₀ p) (hP : P p)
    (hstep : ∀ q op r q', Reachable sha256 (fun _ => True) msg env₀ q → P q →
      Step sha256 q op r q' → P q')
    (hrun : Run sha256 (fun _ => True) p p') : P p' := by
  obtain ⟨s₀, h₀, hrun₀⟩ := hp
  induction hrun with
  | refl => exact hP
  | tail hrun' hst ih =>
    obtain ⟨op, r, -, hst⟩ := hst
    exact hstep _ op r _ ⟨s₀, h₀, hrun₀.trans hrun'⟩ ih hst

theorem Trace.run {p p' : Env × State} {rs : List Response} (ht : Trace sha256 p rs p') :
    Run sha256 (fun _ => True) p p' := by
  induction ht with
  | nil => exact .refl
  | snoc _ hst ih => exact ih.tail ⟨_, _, trivial, hst⟩

theorem Reachable.trace {p p' : Env × State} {rs : List Response}
    (hp : Reachable sha256 (fun _ => True) msg env₀ p) (ht : Trace sha256 p rs p') :
    Reachable sha256 (fun _ => True) msg env₀ p' :=
  let ⟨s₀, h₀, hrun⟩ := hp
  ⟨s₀, h₀, hrun.trans ht.run⟩

end

structure Call where
  env : Env
  querier : Querier
  sender : Addr
  op : Operation

def runCalls (p : Env × State) : List Call → Option ((Env × State) × List Response)
  | [] => some (p, [])
  | c :: cs =>
    if p.1.time ≤ c.env.time ∧ p.1.height ≤ c.env.height ∧ c.env.contract = p.1.contract then
      match execute sha256 p.2 c.env c.querier c.sender c.op with
      | .ok (s', r) => (runCalls (c.env, s') cs).map fun out => (out.1, r :: out.2)
      | .error _ => none
    else none

section
variable {allowed : Operation → Prop} {msg : InstantiateMsg} {env₀ : Env}

theorem Trace.cons {p p' p'' : Env × State} {op : Operation} {r : Response} {rs : List Response}
    (hst : Step sha256 p op r p') (ht : Trace sha256 p' rs p'') : Trace sha256 p (r :: rs) p'' := by
  induction ht with
  | nil => exact (Trace.nil _).snoc hst
  | snoc _ hst' ih => exact ih.snoc hst'

theorem runCalls_cons {p p' : Env × State} {c : Call} {cs : List Call} {rs : List Response}
    (h : runCalls sha256 p (c :: cs) = some (p', rs)) :
    ∃ s' r rs', Step sha256 p c.op r (c.env, s') ∧ runCalls sha256 (c.env, s') cs = some (p', rs') ∧
      rs = r :: rs' := by
  unfold runCalls at h
  split at h
  · rename_i hle
    split at h
    · rename_i s' r hex
      obtain ⟨out, hout, hrs⟩ := Option.map_eq_some'.mp h
      cases hrs
      exact ⟨s', r, out.2, .call c.env c.querier c.sender c.op hle.1 hle.2.1 hle.2.2 hex, hout, rfl⟩
    · cases h
  · cases h

theorem runCalls_trace {p p' : Env × State} {cs : List Call} {rs : List Response}
    (h : runCalls sha256 p cs = some (p', rs)) : Trace sha256 p rs p' := by
  induction cs generalizing p rs with
  | nil => cases h; exact .nil _
  | cons c cs ih =>
    obtain ⟨s', r, rs', hst, hrest, rfl⟩ := runCalls_cons sha256 h
    exact Trace.cons sha256 hst (ih hrest)

theorem runCalls_run {p p' : Env × State} {cs : List Call} {rs : List Response}
    (hcs : ∀ c ∈ cs, allowed c.op) (h : runCalls sha256 p cs = some (p', rs)) :
    Run sha256 allowed p p' := by
  induction cs generalizing p rs with
  | nil => cases h; exact .refl
  | cons c cs ih =>
    obtain ⟨s', r, rs', hst, hrest, -⟩ := runCalls_cons sha256 h
    exact .head ⟨c.op, r, hcs c (.head _), hst⟩ (ih (fun c hc => hcs c (.tail _ hc)) hrest)

theorem reachable_of_allowed_runCalls (cs : List Call) (hcs : ∀ c ∈ cs, allowed c.op)
    {s₀ : State} {p : Env × State} {rs : List Response} (h₀ : instantiate env₀ msg = .ok s₀)
    (h : runCalls sha256 (env₀, s₀) cs = some (p, rs)) : Reachable sha256 allowed msg env₀ p :=
  ⟨s₀, h₀, runCalls_run sha256 hcs h⟩

theorem reachable_of_runCalls (cs : List Call) {s₀ : State} {p : Env × State}
    {rs : List Response} (h₀ : instantiate env₀ msg = .ok s₀)
    (h : runCalls sha256 (env₀, s₀) cs = some (p, rs)) :
    Reachable sha256 (fun _ => True) msg env₀ p :=
  reachable_of_allowed_runCalls sha256 cs (fun _ _ => trivial) h₀ h

theorem Reachable.runCalls {p p' : Env × State} (hp : Reachable sha256 (fun _ => True) msg env₀ p)
    (cs : List Call) {rs : List Response} (h : LiquidStaking.Hub.runCalls sha256 p cs = some (p', rs)) :
    Reachable sha256 (fun _ => True) msg env₀ p' ∧ Trace sha256 p rs p' :=
  ⟨hp.trace sha256 (runCalls_trace sha256 h), runCalls_trace sha256 h⟩

theorem Reachable.runCall {p p' : Env × State} (hp : Reachable sha256 (fun _ => True) msg env₀ p)
    (c : Call) {rs : List Response} (h : LiquidStaking.Hub.runCalls sha256 p [c] = some (p', rs)) :
    ∃ r, Reachable sha256 (fun _ => True) msg env₀ p' ∧ Step sha256 p c.op r p' := by
  obtain ⟨s', r, rs', hst, hrest, -⟩ := runCalls_cons sha256 h
  obtain ⟨rfl, -⟩ := Prod.mk.inj (Option.some.inj hrest)
  exact ⟨r, hp.step sha256 trivial hst, hst⟩

end

def sampleMsg : InstantiateMsg where
  owner := "owner"
  epochPeriod := 259200
  unbondPeriod := 1814400
  validators := ["v1", "v2"]
  denom := "ujuno"
  maxFeeAmount := ⟨10 ^ 16⟩
  feeAmount := ⟨10 ^ 16⟩
  feeAccountType := "Wallet"
  feeAccount := "fees"

def sampleEnv : Env := ⟨1000, 100, "hub"⟩

def sampleTokenEvents : List Event := [⟨"instantiate", [("_contract_address", "steak")]⟩]

def sampleQuerier : Querier := ⟨fun _ => 5, [], fun _ => 10, 10, fun _ => none⟩

def sampleCalls : List Call :=
  [⟨sampleEnv, sampleQuerier, "hub", .registerSteakToken sampleTokenEvents⟩,
    ⟨sampleEnv, sampleQuerier, "alice", .queueUnbond "alice" 10⟩,
    ⟨⟨260200, 200, "hub"⟩, sampleQuerier, "hub", .submitBatch⟩,
    ⟨⟨2074601, 300, "hub"⟩, sampleQuerier, "hub", .reconcile⟩]

def zeroDigest (_ : List UInt8) : Digest := ⟨List.replicate 32 0, rfl⟩

end LiquidStaking.Hub
