import LiquidStaking.SteakHub.State
import LiquidStaking.Hub.Unbonding

/-! Unbonding in the steak hub. `withdrawRequest` is one pass of the loop of
`withdraw_unbonded`: the request's batch must be stored; once it has ended, the request is paid
its share of the batch as loaded and removed, and the batch is removed once a request takes its
last share. The loop never writes the shrunk batch back, so after a partial withdrawal the stored
batch still counts the shares and the `uluna` already paid out, and a staker with a request whose
batch is not stored, such as one of the pending batch, cannot withdraw at all. -/

namespace LiquidStaking.SteakHub

open Hub (UnbondRequest Refund Response requestOrDefault)

variable {s s' : State} {env : Env} {q : Querier} {r : Response}

def queueUnbond (s : State) (env : Env) (stakerAddr : Addr) (usteakToBurn : Nat) :
    Except StdError (State × Response) := do
  let burn ← add128 s.pendingBatch.usteakToBurn usteakToBurn
  let pendingBatch := { s.pendingBatch with usteakToBurn := burn }
  let request := requestOrDefault s.unbondRequests pendingBatch.id stakerAddr
  let shares ← add128 request.shares usteakToBurn
  let msgs := if env.time ≥ pendingBatch.estUnbondStartTime then [CosmosMsg.submitBatch] else []
  pure ({ s with
      pendingBatch
      unbondRequests := Store.save UnbondRequest.key s.unbondRequests { request with shares } },
    { messages := msgs })

def submitBatch (s : State) (env : Env) (q : Querier) : Except StdError (State × Response) := do
  let some steakToken := s.steakToken | throw (.notFound "cosmwasm_std::addresses::Addr")
  let pendingBatch := s.pendingBatch
  let currentTime := env.time
  if currentTime < pendingBatch.estUnbondStartTime then
    throw (.genericErr
      s!"batch can only be submitted for unbonding after {pendingBatch.estUnbondStartTime}")
  let delegations := queryDelegations q s.validators "uluna"
  let ulunaToUnbond ← computeUnbondAmount q.steakSupply pendingBatch.usteakToBurn delegations
  let batch : Batch :=
    ⟨pendingBatch.id, pendingBatch.usteakToBurn, ulunaToUnbond, currentTime + s.unbondPeriod⟩
  pure ({ s with
      previousBatches := Store.save Batch.id s.previousBatches batch
      pendingBatch := ⟨pendingBatch.id + 1, 0, currentTime + s.epochPeriod⟩ },
    { messages := [.burn steakToken pendingBatch.usteakToBurn] })

theorem queueUnbond_ok {stakerAddr : Addr} {usteakToBurn : Nat}
    (h : queueUnbond s env stakerAddr usteakToBurn = .ok (s', r)) :
    s.pendingBatch.usteakToBurn + usteakToBurn < 2 ^ 128 ∧
    s' = { s with
      pendingBatch := { s.pendingBatch with
        usteakToBurn := s.pendingBatch.usteakToBurn + usteakToBurn }
      unbondRequests := Store.save UnbondRequest.key s.unbondRequests
        { requestOrDefault s.unbondRequests s.pendingBatch.id stakerAddr with
          shares := (requestOrDefault s.unbondRequests s.pendingBatch.id stakerAddr).shares +
            usteakToBurn } } ∧
    r = { messages :=
      if env.time ≥ s.pendingBatch.estUnbondStartTime then [CosmosMsg.submitBatch] else [] } := by
  unfold queueUnbond at h
  simp only [bind_eq_ok, add128_eq_ok, pure, Except.pure, Except.ok.injEq, Prod.mk.injEq] at h
  obtain ⟨_, ⟨hb, rfl⟩, _, ⟨-, rfl⟩, rfl, rfl⟩ := h
  exact ⟨hb, rfl, rfl⟩

theorem submitBatch_ok (h : submitBatch s env q = .ok (s', r)) :
    ∃ steakToken ulunaToUnbond, s.steakToken = some steakToken ∧
      s.pendingBatch.estUnbondStartTime ≤ env.time ∧
      computeUnbondAmount q.steakSupply s.pendingBatch.usteakToBurn
        (queryDelegations q s.validators "uluna") = .ok ulunaToUnbond ∧
      s' = { s with
        previousBatches := Store.save Batch.id s.previousBatches
          ⟨s.pendingBatch.id, s.pendingBatch.usteakToBurn, ulunaToUnbond,
            env.time + s.unbondPeriod⟩
        pendingBatch := ⟨s.pendingBatch.id + 1, 0, env.time + s.epochPeriod⟩ } ∧
      r = { messages := [.burn steakToken s.pendingBatch.usteakToBurn] } := by
  unfold submitBatch at h
  cases ht : s.steakToken with
  | none => simp [ht] at h
  | some token =>
    by_cases hs : env.time < s.pendingBatch.estUnbondStartTime
    · simp [ht, hs] at h
    · simp only [ht, hs, ite_false, bind_eq_ok, pure, Except.pure, Except.ok.injEq,
        Prod.mk.injEq] at h
      obtain ⟨-, -, a, ha, rfl, rfl⟩ := h
      exact ⟨token, a, rfl, Nat.le_of_not_lt hs, ha, rfl, rfl⟩

structure Withdrawal where
  state : State
  total : Nat
  refunds : List Refund

def withdrawRequest (currentTime : Nat) (stakerAddr : Addr) (acc : Withdrawal)
    (request : UnbondRequest) : Except StdError Withdrawal := do
  let s := acc.state
  let some batch := Store.load Batch.id s.previousBatches request.id
    | throw (.notFound "steak_hub::msg::Batch")
  if batch.estUnbondEndTime < currentTime then
    let ulunaToRefund ← multiplyRatio batch.ulunaUnclaimed request.shares batch.totalShares
    let total ← add128 acc.total ulunaToRefund
    let totalShares ← sub batch.totalShares request.shares
    let _ ← sub batch.ulunaUnclaimed ulunaToRefund
    let previousBatches := if totalShares = 0 then
        Store.remove Batch.id s.previousBatches request.id
      else s.previousBatches
    pure ⟨{ s with
        previousBatches
        unbondRequests := Store.remove UnbondRequest.key s.unbondRequests (request.id, stakerAddr) },
      total, acc.refunds ++ [⟨request, ulunaToRefund⟩]⟩
  else pure acc

def withdrawUnbonded (s : State) (env : Env) (stakerAddr : Addr) :
    Except StdError (State × Response) := do
  let requests := s.unbondRequests.filter (·.user = stakerAddr)
  let out ← requests.foldlM (withdrawRequest env.time stakerAddr) ⟨s, 0, []⟩
  pure (out.state,
    { messages := [.bankSend stakerAddr out.total "uluna"], refunds := out.refunds })

theorem withdrawRequest_ok {t : Nat} {u : Addr} {acc acc' : Withdrawal} {x : UnbondRequest}
    (h : withdrawRequest t u acc x = .ok acc') :
    ∃ b, Store.load Batch.id acc.state.previousBatches x.id = some b ∧
      (t ≤ b.estUnbondEndTime ∧ acc' = acc ∨
        b.estUnbondEndTime < t ∧ 0 < b.totalShares ∧ x.shares ≤ b.totalShares ∧
        acc.total + b.ulunaUnclaimed * x.shares / b.totalShares < 2 ^ 128 ∧
        acc' = ⟨{ acc.state with
          previousBatches := if b.totalShares - x.shares = 0 then
              Store.remove Batch.id acc.state.previousBatches x.id
            else acc.state.previousBatches
          unbondRequests := Store.remove UnbondRequest.key acc.state.unbondRequests (x.id, u) },
          acc.total + b.ulunaUnclaimed * x.shares / b.totalShares,
          acc.refunds ++ [⟨x, b.ulunaUnclaimed * x.shares / b.totalShares⟩]⟩) := by
  unfold withdrawRequest at h
  cases hl : Store.load Batch.id acc.state.previousBatches x.id with
  | none => simp [hl] at h
  | some b =>
    refine ⟨b, rfl, ?_⟩
    simp only [hl] at h
    split at h
    · rename_i hend
      simp only [bind_eq_ok, multiplyRatio_eq_ok, add128_eq_ok, sub_eq_ok, pure, Except.pure,
        Except.ok.injEq] at h
      obtain ⟨f, ⟨hT, -, rfl⟩, _, ⟨htot, rfl⟩, _, ⟨hs, rfl⟩, _, -, rfl⟩ := h
      exact .inr ⟨hend, hT, hs, htot, rfl⟩
    · cases h
      exact .inl ⟨Nat.le_of_not_lt ‹_›, rfl⟩

theorem mem_withdrawRequest {t : Nat} {u : Addr} {acc acc' : Withdrawal} {x y : UnbondRequest}
    (h : withdrawRequest t u acc x = .ok acc') (hy : y ∈ acc.state.unbondRequests)
    (hk : y.key ≠ (x.id, u)) : y ∈ acc'.state.unbondRequests := by
  obtain ⟨b, -, ⟨-, rfl⟩ | ⟨-, -, -, -, rfl⟩⟩ := withdrawRequest_ok h
  · exact hy
  · exact Store.mem_remove.mpr ⟨hy, hk⟩

theorem withdrawUnbonded_ok {u : Addr} (h : withdrawUnbonded s env u = .ok (s', r)) :
    ∃ out : Withdrawal, (s.unbondRequests.filter (·.user = u)).foldlM (withdrawRequest env.time u)
        ⟨s, 0, []⟩ = .ok out ∧ s' = out.state ∧
      r = { messages := [.bankSend u out.total "uluna"], refunds := out.refunds } := by
  obtain ⟨out, hout, h⟩ := bind_eq_ok.mp h
  cases h
  exact ⟨out, hout, rfl, rfl⟩

theorem withdrawUnbonded_induction {u : Addr} {P : Withdrawal → Prop}
    (hstep : ∀ acc acc' x, P acc → x ∈ acc.state.unbondRequests → x.user = u →
      withdrawRequest env.time u acc x = .ok acc' → P acc')
    (hnd : (s.unbondRequests.map UnbondRequest.key).Nodup) (hP : P ⟨s, 0, []⟩)
    (h : withdrawUnbonded s env u = .ok (s', r)) :
    ∃ out : Withdrawal, out.state = s' ∧ out.refunds = r.refunds ∧ P out := by
  obtain ⟨out, hout, rfl, rfl⟩ := withdrawUnbonded_ok h
  refine ⟨out, rfl, rfl, Hub.foldlM_induction_of_remove
    (fun _ _ _ _ h hy hk => mem_withdrawRequest h hy hk) hstep (fun x hx => ?_)
    (hnd.sublist ((List.filter_sublist _).map _)) hP hout⟩
  simpa using List.mem_filter.mp hx

theorem withdrawUnbonded_frame {u : Addr} (h : withdrawUnbonded s env u = .ok (s', r)) :
    s' = { s with previousBatches := s'.previousBatches, unbondRequests := s'.unbondRequests } := by
  obtain ⟨out, hout, rfl, -⟩ := withdrawUnbonded_ok h
  suffices ∀ (reqs : List UnbondRequest) (acc : Withdrawal), reqs.foldlM (withdrawRequest env.time u)
      acc = .ok out → out.state = { acc.state with
        previousBatches := out.state.previousBatches, unbondRequests := out.state.unbondRequests }
    from this _ _ hout
  intro reqs
  induction reqs with
  | nil => intro acc h; cases h; rfl
  | cons x xs ih =>
    intro acc h
    obtain ⟨mid, hmid, h⟩ := bind_eq_ok.mp h
    rw [ih mid h]
    obtain ⟨b, -, ⟨-, rfl⟩ | ⟨-, -, -, -, rfl⟩⟩ := withdrawRequest_ok hmid <;> rfl

theorem withdrawRequest_keeps_batch {t : Nat} {u : Addr} {acc acc' : Withdrawal}
    {x : UnbondRequest} {b : Batch}
    (hb : Store.load Batch.id acc.state.previousBatches x.id = some b)
    (hlt : x.shares < b.totalShares) (h : withdrawRequest t u acc x = .ok acc') :
    acc'.state.previousBatches = acc.state.previousBatches ∧
      (b.estUnbondEndTime < t → acc'.state.unbondRequests =
        Store.remove UnbondRequest.key acc.state.unbondRequests (x.id, u)) := by
  unfold withdrawRequest at h
  simp only [hb] at h
  split at h
  · rename_i hend
    simp only [bind_eq_ok, add128_eq_ok, sub_eq_ok, pure, Except.pure, Except.ok.injEq] at h
    obtain ⟨f, -, _, -, _, ⟨-, rfl⟩, _, -, rfl⟩ := h
    exact ⟨if_neg (by omega), fun _ => rfl⟩
  · cases h
    exact ⟨rfl, fun hend => absurd hend ‹_›⟩

theorem mem_withdrawRequest_batches {t : Nat} {u : Addr} {acc acc' : Withdrawal}
    {x : UnbondRequest} {b : Batch} (h : withdrawRequest t u acc x = .ok acc')
    (hb : b ∈ acc'.state.previousBatches) : b ∈ acc.state.previousBatches := by
  unfold withdrawRequest at h
  cases hl : Store.load Batch.id acc.state.previousBatches x.id with
  | none => simp [hl] at h
  | some batch =>
    simp only [hl] at h
    split at h
    · simp only [bind_eq_ok, pure, Except.pure, Except.ok.injEq] at h
      obtain ⟨f, -, _, -, _, -, _, -, rfl⟩ := h
      dsimp only at hb
      split at hb
      · exact (Store.mem_remove.mp hb).1
      · exact hb
    · cases h
      exact hb

theorem foldlM_withdrawRequest_of_unstored {t : Nat} {u : Addr} {reqs : List UnbondRequest}
    {x : UnbondRequest} (hx : x ∈ reqs) {acc : Withdrawal}
    (hb : Store.load Batch.id acc.state.previousBatches x.id = none) (out : Withdrawal) :
    reqs.foldlM (withdrawRequest t u) acc ≠ .ok out := by
  induction reqs generalizing acc with
  | nil => cases hx
  | cons y ys ih =>
    intro h
    simp only [List.foldlM_cons, bind_eq_ok] at h
    obtain ⟨mid, hmid, h⟩ := h
    rcases List.mem_cons.mp hx with rfl | hx
    · simp [withdrawRequest, hb] at hmid
    · refine ih hx (Store.load_eq_none.mpr fun b hb' => ?_) h
      exact Store.load_eq_none.mp hb b (mem_withdrawRequest_batches hmid hb')

theorem withdrawUnbonded_of_unstored {u : Addr} {x : UnbondRequest} (hx : x ∈ s.unbondRequests)
    (hu : x.user = u) (hb : Store.load Batch.id s.previousBatches x.id = none)
    (out : State × Response) : withdrawUnbonded s env u ≠ .ok out := by
  intro h
  obtain ⟨acc, hacc, -⟩ := bind_eq_ok.mp h
  exact foldlM_withdrawRequest_of_unstored (List.mem_filter.mpr ⟨hx, by simpa using hu⟩) hb acc
    hacc

end LiquidStaking.SteakHub
