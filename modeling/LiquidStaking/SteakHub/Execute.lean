import LiquidStaking.SteakHub.Harvest
import LiquidStaking.SteakHub.Unbonding

/-! The steak hub as a state machine. A call is one entry point of `execute.rs` (the sender is
the worker of `harvest` and the staker of `withdraw_unbonded`; `register_*` are the replies to
submessages), and a run starts from `instantiate`. Two runs from its instantiation follow: a
harvest whose `uluna` is delegated by two `reinvest` calls, and a batch of three requests, one
Steak each for 10 `uluna`, whose withdrawals leave the batch stored and pay out less than it
holds. -/

namespace LiquidStaking.SteakHub

open Hub (Response)

inductive Operation where
  | bond (stakerAddr : Addr) (ulunaToBond : Nat)
  | harvest
  | swap
  | reinvest
  | registerReceivedCoins (events : List Event)
  | registerSteakToken (events : List Event)
  | queueUnbond (stakerAddr : Addr) (usteakToBurn : Nat)
  | submitBatch
  | withdrawUnbonded

def execute (s : State) (env : Env) (q : Querier) (sender : Addr) :
    Operation → Except StdError (State × Response)
  | .bond stakerAddr ulunaToBond => bond s env q stakerAddr ulunaToBond
  | .harvest => harvest s env q sender
  | .swap => swap s env
  | .reinvest => reinvest s env q
  | .registerReceivedCoins events => registerReceivedCoins s env events
  | .registerSteakToken events => registerSteakToken s events
  | .queueUnbond stakerAddr usteakToBurn => queueUnbond s env stakerAddr usteakToBurn
  | .submitBatch => submitBatch s env q
  | .withdrawUnbonded => withdrawUnbonded s env sender

def Operation.Writes : Operation → State → State → Prop
  | .bond .., s, s' | .harvest, s, s' => s' = s
  | .swap, s, s' | .reinvest, s, s' | .registerReceivedCoins _, s, s' =>
    s' = { s with unlockedCoins := s'.unlockedCoins }
  | .registerSteakToken _, s, s' => s' = { s with steakToken := s'.steakToken }
  | .queueUnbond .., s, s' =>
    s' = { s with pendingBatch := s'.pendingBatch, unbondRequests := s'.unbondRequests }
  | .submitBatch, s, s' =>
    s' = { s with previousBatches := s'.previousBatches, pendingBatch := s'.pendingBatch }
  | .withdrawUnbonded, s, s' =>
    s' = { s with previousBatches := s'.previousBatches, unbondRequests := s'.unbondRequests }

section
variable {s s' : State} {env : Env} {q : Querier} {sender : Addr} {r : Response}

theorem execute_writes {op : Operation} (h : execute s env q sender op = .ok (s', r)) :
    op.Writes s s' ∧ (r.refunds = [] ∨ op = .withdrawUnbonded) := by
  cases op <;> simp only [execute] at h <;>
    simp only [Operation.Writes, reduceCtorEq, or_false, or_true, and_true]
  case bond => obtain ⟨-, -, -, rfl, rfl⟩ := bond_ok h; exact ⟨rfl, rfl⟩
  case harvest => obtain ⟨-, rfl, rfl⟩ := harvest_ok h; exact ⟨rfl, rfl⟩
  case swap => obtain ⟨rfl, rfl⟩ := swap_ok h; exact ⟨rfl, rfl⟩
  case reinvest => obtain ⟨-, -, rfl, rfl⟩ := reinvest_ok h; exact ⟨rfl, rfl⟩
  case registerReceivedCoins => obtain ⟨hs, rfl⟩ := registerReceivedCoins_ok h; exact ⟨hs, rfl⟩
  case registerSteakToken => obtain ⟨hs, rfl⟩ := registerSteakToken_ok h; exact ⟨hs, rfl⟩
  case queueUnbond => obtain ⟨-, rfl, rfl⟩ := queueUnbond_ok h; exact ⟨rfl, rfl⟩
  case submitBatch => obtain ⟨-, -, -, -, -, rfl, rfl⟩ := submitBatch_ok h; exact ⟨rfl, rfl⟩
  case withdrawUnbonded => exact withdrawUnbonded_frame h

end

inductive Step : Env × State → Operation → Response → Env × State → Prop
  | call {env : Env} {s s' : State} {r : Response} (env' : Env) (q : Querier) (sender : Addr)
      (op : Operation) (htime : env.time ≤ env'.time) (hheight : env.height ≤ env'.height)
      (hcontract : env'.contract = env.contract)
      (h : execute s env' q sender op = .ok (s', r)) : Step (env, s) op r (env', s')

inductive Log : Env × State → List (Operation × Response) → Env × State → Prop
  | nil (p : Env × State) : Log p [] p
  | snoc {p p' p'' : Env × State} {l : List (Operation × Response)} {op : Operation}
      {r : Response} : Log p l p' → Step p' op r p'' → Log p (l ++ [(op, r)]) p''

def Reachable (msg : InstantiateMsg) (env₀ : Env) (p : Env × State) : Prop :=
  ∃ l, Log (env₀, instantiate env₀ msg) l p

section
variable {msg : InstantiateMsg} {env₀ : Env}

theorem Log.cons {p p' p'' : Env × State} {op : Operation} {r : Response}
    {l : List (Operation × Response)} (hst : Step p op r p') (hl : Log p' l p'') :
    Log p ((op, r) :: l) p'' := by
  induction hl with
  | nil => exact (Log.nil _).snoc hst
  | snoc _ hst' ih => exact ih.snoc hst'

theorem Reachable.log {p p' : Env × State} {l : List (Operation × Response)}
    (hp : Reachable msg env₀ p) (hl : Log p l p') : Reachable msg env₀ p' := by
  induction hl with
  | nil => exact hp
  | snoc _ hst ih =>
    obtain ⟨l₁, hl₁⟩ := ih
    exact ⟨_, hl₁.snoc hst⟩

theorem Reachable.induction {P : Env × State → Prop} (hinit : P (env₀, instantiate env₀ msg))
    (hstep : ∀ p op r p', Reachable msg env₀ p → P p → Step p op r p' → P p')
    {p : Env × State} (hp : Reachable msg env₀ p) : P p := by
  obtain ⟨l, hl⟩ := hp
  induction hl with
  | nil => exact hinit
  | snoc hl' hst ih => exact hstep _ _ _ _ ⟨_, hl'⟩ ih hst

end

structure Call where
  env : Env
  querier : Querier
  sender : Addr
  op : Operation

def runCalls (p : Env × State) : List Call → Option ((Env × State) × List Response)
  | [] => some (p, [])
  | c :: cs =>
    if p.1.time ≤ c.env.time ∧ p.1.height ≤ c.env.height ∧ c.env.contract = p.1.contract then
      match execute p.2 c.env c.querier c.sender c.op with
      | .ok (s', r) => (runCalls (c.env, s') cs).map fun out => (out.1, r :: out.2)
      | .error _ => none
    else none

theorem runCalls_log {p p' : Env × State} (cs : List Call) {rs : List Response}
    (h : runCalls p cs = some (p', rs)) : Log p ((cs.map (·.op)).zip rs) p' := by
  induction cs generalizing p rs with
  | nil => cases h; exact .nil _
  | cons c cs ih =>
    unfold runCalls at h
    split at h
    · rename_i hle
      split at h
      · rename_i s' r hex
        obtain ⟨out, hout, hrs⟩ := Option.map_eq_some'.mp h
        cases hrs
        exact Log.cons (.call c.env c.querier c.sender c.op hle.1 hle.2.1 hle.2.2 hex) (ih hout)
      · cases h
    · cases h

theorem reachable_of_runCalls {msg : InstantiateMsg} {env₀ : Env} (cs : List Call)
    {p : Env × State} {rs : List Response}
    (h : runCalls (env₀, instantiate env₀ msg) cs = some (p, rs)) : Reachable msg env₀ p :=
  ⟨_, runCalls_log cs h⟩

def sampleMsg : InstantiateMsg := ⟨["worker"], ["v1", "v2"], 259200, 1814400⟩

def sampleEnv : Env := ⟨1000, 100, "hub"⟩

def sampleQuerier : Querier := ⟨fun _ => 5, ["v1", "v2"], fun _ => 10, 3, fun _ => none⟩

def registerToken : Call :=
  ⟨sampleEnv, sampleQuerier, "hub", .registerSteakToken
    [⟨"instantiate_contract", [("contract_address", "steak")]⟩]⟩

def harvestCalls : List Call :=
  [registerToken,
    ⟨sampleEnv, sampleQuerier, "hub", .registerReceivedCoins
      [⟨"coin_received", [("receiver", "hub"), ("amount", "100uluna")]⟩]⟩,
    ⟨sampleEnv, sampleQuerier, "hub", .reinvest⟩,
    ⟨sampleEnv, sampleQuerier, "hub", .reinvest⟩]

/-- The 100 `uluna` registered once are delegated twice, and still sit in `unlocked_coins`. -/
theorem reinvest_delegates_twice : ∃ p rs,
    runCalls (sampleEnv, instantiate sampleEnv sampleMsg) harvestCalls = some (p, rs) ∧
    (rs.map delegatedUluna).sum = 200 ∧ Coins.find p.2.unlockedCoins "uluna" = 100 :=
  ⟨_, _, rfl, rfl, rfl⟩

def unbondCalls : List Call :=
  [registerToken,
    ⟨sampleEnv, sampleQuerier, "steak", .queueUnbond "alice" 1⟩,
    ⟨sampleEnv, sampleQuerier, "steak", .queueUnbond "bob" 1⟩,
    ⟨sampleEnv, sampleQuerier, "steak", .queueUnbond "carol" 1⟩,
    ⟨⟨260200, 200, "hub"⟩, sampleQuerier, "hub", .submitBatch⟩,
    ⟨⟨2074601, 300, "hub"⟩, sampleQuerier, "alice", .withdrawUnbonded⟩,
    ⟨⟨2074601, 300, "hub"⟩, sampleQuerier, "bob", .withdrawUnbonded⟩,
    ⟨⟨2074601, 300, "hub"⟩, sampleQuerier, "carol", .withdrawUnbonded⟩]

/-- After every request of the batch is withdrawn, the batch is still stored with its three
shares and 10 `uluna`, and the refunds add up to 9. -/
theorem withdrawals_leave_batch : ∃ p rs,
    runCalls (sampleEnv, instantiate sampleEnv sampleMsg) unbondCalls = some (p, rs) ∧
    p.2.unbondRequests = [] ∧ p.2.previousBatches = [⟨1, 3, 10, 2074600⟩] ∧
    (((rs.map (·.refunds)).flatten).map (·.amount)).sum = 9 :=
  ⟨_, _, rfl, rfl, rfl, rfl⟩

def pendingCalls : List Call :=
  [registerToken,
    ⟨sampleEnv, sampleQuerier, "steak", .queueUnbond "alice" 1⟩,
    ⟨⟨260200, 200, "hub"⟩, sampleQuerier, "hub", .submitBatch⟩,
    ⟨⟨260200, 200, "hub"⟩, sampleQuerier, "steak", .queueUnbond "alice" 1⟩]

/-- Alice's first request is in a stored batch that ends at 2074600; her second is in the
pending batch, which is not stored. She can withdraw at no time, and after the first batch has
ended her withdrawal fails on the pending request. -/
theorem pending_request_blocks_withdrawal : ∃ p rs,
    runCalls (sampleEnv, instantiate sampleEnv sampleMsg) pendingCalls = some (p, rs) ∧
    (∃ x ∈ p.2.unbondRequests, x.user = "alice" ∧
      ∃ b ∈ p.2.previousBatches, b.id = x.id ∧ b.estUnbondEndTime < 2074601) ∧
    (∀ env out, withdrawUnbonded p.2 env "alice" ≠ .ok out) ∧
    withdrawUnbonded p.2 ⟨2074601, 300, "hub"⟩ "alice" =
      .error (.notFound "steak_hub::msg::Batch") :=
  ⟨_, _, rfl, by decide,
    fun _ out => withdrawUnbonded_of_unstored (x := ⟨2, "alice", 1⟩) (by decide) rfl (by decide)
      out, rfl⟩

end LiquidStaking.SteakHub
