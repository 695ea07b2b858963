import LiquidStaking.Hub.Slashing

/-! The batched unbonding of `contracts/hub/src/execute.rs`: `queue_unbond`, `submit_batch`,
`reconcile` and `withdraw_unbonded`. `Withdrawal` is what the loop of `withdraw_unbonded`
carries (the store, `total_native_to_refund` and the requests paid so far, with their refunds),
and `withdrawRequest` is one pass of it: a request of a reconciled batch whose unbonding has ended
is paid its share and removed, and the batch shrinks, or goes once its last share is gone. A pass
takes out at most the request it is on, so what every pass keeps, the whole loop keeps. -/

namespace LiquidStaking.Hub

variable {s s' : State} {r : Response} {env : Env} {q : Querier}

def sum128 (xs : List Nat) : Except StdError Nat := xs.foldlM add128 0

theorem foldlM_add128 {xs : List Nat} {a n : Nat} (h : xs.foldlM add128 a = .ok n) :
    n = a + xs.sum := by
  induction xs generalizing a with
  | nil => cases h; simp
  | cons x xs ih =>
    simp only [List.foldlM_cons, bind_eq_ok] at h
    obtain ⟨b, hb, h⟩ := h
    obtain ⟨-, rfl⟩ := add128_eq_ok.mp hb
    rw [ih h, List.sum_cons, Nat.add_assoc]

theorem sum128_eq_ok {xs : List Nat} {n : Nat} (h : sum128 xs = .ok n) : n = xs.sum := by
  simpa using foldlM_add128 h

def requestOrDefault (rs : List UnbondRequest) (id : Nat) (user : Addr) : UnbondRequest :=
  (Store.load UnbondRequest.key rs (id, user)).getD ⟨id, user, 0⟩

theorem key_requestOrDefault (rs : List UnbondRequest) (id : Nat) (user : Addr) :
    (requestOrDefault rs id user).key = (id, user) := by
  unfold requestOrDefault Store.load
  cases h : rs.find? (fun x => x.key = (id, user)) with
  | none => rfl
  | some x => simpa using List.find?_some h

def queueUnbond (s : State) (env : Env) (receiver : Addr) (usteakToBurn : Nat) :
    Except StdError (State × Response) := do
  let burn ← add128 s.pendingBatch.usteakToBurn usteakToBurn
  let pendingBatch := { s.pendingBatch with usteakToBurn := burn }
  let request := requestOrDefault s.unbondRequests pendingBatch.id receiver
  let shares ← add128 request.shares usteakToBurn
  let msgs := if env.time ≥ pendingBatch.estUnbondStartTime then [CosmosMsg.submitBatch] else []
  pure ({ s with
      pendingBatch
      unbondRequests := Store.save UnbondRequest.key s.unbondRequests { request with shares } },
    { messages := msgs })

theorem queueUnbond_ok {receiver : Addr} {amount : Nat}
    (h : queueUnbond s env receiver amount = .ok (s', r)) :
    s' = { s with
      pendingBatch := { s.pendingBatch with usteakToBurn := s.pendingBatch.usteakToBurn + amount }
      unbondRequests := Store.save UnbondRequest.key s.unbondRequests
        { requestOrDefault s.unbondRequests s.pendingBatch.id receiver with
          shares := (requestOrDefault s.unbondRequests s.pendingBatch.id receiver).shares + amount } } ∧
    r.refunds = [] := by
  unfold queueUnbond at h
  simp only [bind_eq_ok, add128_eq_ok, pure, Except.pure, Except.ok.injEq, Prod.mk.injEq] at h
  obtain ⟨_, ⟨-, rfl⟩, _, ⟨-, rfl⟩, rfl, rfl⟩ := h
  exact ⟨rfl, rfl⟩

def submitBatch (s : State) (env : Env) (q : Querier) : Except StdError (State × Response) := do
  let some steakToken := s.steakToken | throw (.notFound "cosmwasm_std::addresses::Addr")
  let pendingBatch := s.pendingBatch
  let start := pendingBatch.estUnbondStartTime
  let currentTime := env.time
  if currentTime < start then
    throw (.genericErr s!"batch can only be submitted for unbonding after {start}")
  let delegations := queryDelegations q s.validators s.denom
  let amountToBond ← computeUnbondAmount q.steakSupply pendingBatch.usteakToBurn delegations
  let batch : Batch :=
    ⟨pendingBatch.id, false, pendingBatch.usteakToBurn, amountToBond, currentTime + s.unbondPeriod⟩
  pure ({ s with
      previousBatches := Store.save Batch.id s.previousBatches batch
      pendingBatch := ⟨pendingBatch.id + 1, 0, currentTime + s.epochPeriod⟩
      prevDenom := q.balance s.denom },
    { messages := [.burn steakToken pendingBatch.usteakToBurn] })

theorem submitBatch_ok (h : submitBatch s env q = .ok (s', r)) :
    s.pendingBatch.estUnbondStartTime ≤ env.time ∧ ∃ amountToBond,
      computeUnbondAmount q.steakSupply s.pendingBatch.usteakToBurn
        (queryDelegations q s.validators s.denom) = .ok amountToBond ∧
      s' = { s with
        previousBatches := Store.save Batch.id s.previousBatches
          ⟨s.pendingBatch.id, false, s.pendingBatch.usteakToBurn, amountToBond,
            env.time + s.unbondPeriod⟩
        pendingBatch := ⟨s.pendingBatch.id + 1, 0, env.time + s.epochPeriod⟩
        prevDenom := q.balance s.denom } ∧
    r.refunds = [] := by
  unfold submitBatch at h
  cases ht : s.steakToken with
  | none => simp [ht] at h
  | some token =>
    by_cases hs : env.time < s.pendingBatch.estUnbondStartTime
    · simp [ht, hs] at h
    · simp only [ht, hs, ite_false, bind_eq_ok, pure, Except.pure, Except.ok.injEq,
        Prod.mk.injEq] at h
      obtain ⟨-, -, a, ha, rfl, rfl⟩ := h
      exact ⟨Nat.le_of_not_lt hs, a, ha, rfl, rfl⟩

def reconcileSelect (bs : List Batch) (currentTime : Nat) : List Batch :=
  (bs.filter fun b => !b.reconciled).filter fun b => currentTime > b.estUnbondEndTime

def reconcileDeduct (batches : List Batch) (nativeToDeduct : Nat) : List Batch :=
  if nativeToDeduct ≠ 0 then reconcileBatches batches nativeToDeduct else batches

def reconcile (s : State) (env : Env) (q : Querier) : Except StdError (State × Response) := do
  let batches := reconcileSelect s.previousBatches env.time
  let nativeExpectedReceived ← sum128 (batches.map (·.amountUnclaimed))
  let nativeExpectedUnlocked := Coins.find s.unlockedCoins s.denom
  let nativeExpected ← add128 nativeExpectedReceived nativeExpectedUnlocked
  let nativeActual := q.balance s.denom
  let batches := reconcileDeduct batches (nativeExpected - nativeActual)
  let batches := batches.map fun b => { b with reconciled := true }
  pure ({ s with previousBatches := batches.foldl (Store.save Batch.id) s.previousBatches }, {})

@[simp] theorem mem_reconcileSelect {bs : List Batch} {t : Nat} {b : Batch} :
    b ∈ reconcileSelect bs t ↔ b ∈ bs ∧ b.reconciled = false ∧ b.estUnbondEndTime < t := by
  simp only [reconcileSelect, List.mem_filter, Bool.not_eq_true', decide_eq_true_eq, gt_iff_lt]
  tauto

theorem mem_reconcileDeduct {bs : List Batch} {n : Nat} {b' : Batch}
    (h : b' ∈ reconcileDeduct bs n) :
    ∃ b ∈ bs, b'.shape = b.shape ∧ b'.amountUnclaimed ≤ b.amountUnclaimed := by
  unfold reconcileDeduct at h
  split at h
  · exact mem_reconcileBatches h
  · exact ⟨b', h, rfl, le_rfl⟩

theorem shape_reconcileDeduct (bs : List Batch) (n : Nat) :
    (reconcileDeduct bs n).map Batch.shape = bs.map Batch.shape := by
  unfold reconcileDeduct
  split
  · exact shape_reconcileBatches bs n
  · rfl

theorem unclaimedTotal_reconcileDeduct (bs : List Batch) (n : Nat) :
    unclaimedTotal (reconcileDeduct bs n) = unclaimedTotal bs - min n (unclaimedTotal bs) := by
  unfold reconcileDeduct
  split
  · exact unclaimedTotal_reconcileBatches bs n
  · simp_all

def settledBatches (bs : List Batch) (t n : Nat) : List Batch :=
  (reconcileDeduct (reconcileSelect bs t) n).map fun b => { b with reconciled := true }

def settle (bs : List Batch) (t n : Nat) (b : Batch) : Batch :=
  (Store.load Batch.id (settledBatches bs t n) b.id).getD b

theorem reconcile_ok (h : reconcile s env q = .ok (s', r)) :
    s' = { s with
      previousBatches := List.foldl (Store.save Batch.id) s.previousBatches
        (settledBatches s.previousBatches env.time
          (unclaimedTotal (reconcileSelect s.previousBatches env.time) +
            Coins.find s.unlockedCoins s.denom - q.balance s.denom)) } ∧
    r = {} := by
  unfold reconcile at h
  simp only [bind_eq_ok, add128_eq_ok, pure, Except.pure, Except.ok.injEq, Prod.mk.injEq] at h
  obtain ⟨n, hn, _, ⟨-, rfl⟩, rfl, rfl⟩ := h
  rw [sum128_eq_ok hn]
  exact ⟨rfl, rfl⟩

theorem Batch.eq_of_shape {b' b : Batch} (h : b'.shape = b.shape) :
    b' = { b with amountUnclaimed := b'.amountUnclaimed } := by
  cases b'; cases b
  simp_all [Batch.shape]

section Settle
variable {bs : List Batch} {t n : Nat} {b : Batch}

theorem exists_of_mem_settledBatches {v : Batch} (hv : v ∈ settledBatches bs t n) :
    ∃ b ∈ reconcileSelect bs t, v = { b with reconciled := true, amountUnclaimed := v.amountUnclaimed } ∧
      v.amountUnclaimed ≤ b.amountUnclaimed := by
  obtain ⟨w, hw, rfl⟩ := List.mem_map.mp hv
  obtain ⟨b, hb, hs, ha⟩ := mem_reconcileDeduct hw
  exact ⟨b, hb, by rw [Batch.eq_of_shape hs], ha⟩

theorem settle_of_not_mem (hnd : (bs.map (·.id)).Nodup) (hb : b ∈ bs)
    (hsel : b ∉ reconcileSelect bs t) : settle bs t n b = b := by
  rw [settle, Store.load_eq_none.mpr, Option.getD_none]
  intro v hv hid
  obtain ⟨c, hc, hvc, -⟩ := exists_of_mem_settledBatches hv
  have hcb : c.id = b.id := by rw [← hid, hvc]
  exact hsel (List.inj_on_of_nodup_map hnd (mem_reconcileSelect.mp hc).1 hb hcb ▸ hc)

theorem map_id_settledBatches :
    (settledBatches bs t n).map (·.id) = (reconcileSelect bs t).map (·.id) := by
  have := congrArg (List.map (·.id)) (shape_reconcileDeduct (reconcileSelect bs t) n)
  simpa [settledBatches, Function.comp_def, Batch.shape] using this

theorem nodup_settledBatches (hnd : (bs.map (·.id)).Nodup) :
    ((settledBatches bs t n).map (·.id)).Nodup :=
  map_id_settledBatches ▸ hnd.sublist (((List.filter_sublist _).trans (List.filter_sublist _)).map _)

theorem settle_of_mem (hnd : (bs.map (·.id)).Nodup) (hsel : b ∈ reconcileSelect bs t) :
    ∃ a ≤ b.amountUnclaimed, settle bs t n b = { b with reconciled := true, amountUnclaimed := a } := by
  obtain ⟨v, hv, hvid⟩ :=
    List.mem_map.mp (map_id_settledBatches (n := n) ▸ List.mem_map_of_mem (fun b : Batch => b.id) hsel)
  obtain ⟨c, hc, hvc, ha⟩ := exists_of_mem_settledBatches hv
  have hcb : c = b := List.inj_on_of_nodup_map hnd (mem_reconcileSelect.mp hc).1
    (mem_reconcileSelect.mp hsel).1 (by rw [← hvid, hvc])
  subst hcb
  have hload : Store.load Batch.id (settledBatches bs t n) c.id = some v :=
    hvid ▸ Store.load_of_mem (nodup_settledBatches hnd) hv
  rw [settle, hload, Option.getD_some]
  exact ⟨v.amountUnclaimed, ha, hvc⟩

theorem foldl_save_settledBatches (hnd : (bs.map (·.id)).Nodup) :
    (settledBatches bs t n).foldl (Store.save Batch.id) bs = bs.map (settle bs t n) := by
  refine Store.foldl_save (fun v hv => ?_) (nodup_settledBatches hnd)
  obtain ⟨c, hc, hvc, -⟩ := exists_of_mem_settledBatches hv
  exact List.mem_map.mpr ⟨c, (mem_reconcileSelect.mp hc).1, by rw [hvc]⟩

end Settle

structure Withdrawal where
  state : State
  total : Nat
  refunds : List Refund

def withdrawRequest (currentTime : Nat) (user : Addr) (acc : Withdrawal)
    (request : UnbondRequest) : Except StdError Withdrawal :=
  let s := acc.state
  match Store.load Batch.id s.previousBatches request.id with
  | none => pure acc
  | some batch =>
    if batch.reconciled && batch.estUnbondEndTime < currentTime then do
      let nativeToRefund ← multiplyRatio batch.amountUnclaimed request.shares batch.totalShares
      let total ← add128 acc.total nativeToRefund
      let totalShares ← sub batch.totalShares request.shares
      let amountUnclaimed ← sub batch.amountUnclaimed nativeToRefund
      let previousBatches := if totalShares = 0 then Store.remove Batch.id s.previousBatches request.id
        else Store.save Batch.id s.previousBatches { batch with totalShares, amountUnclaimed }
      pure ⟨{ s with
          previousBatches
          unbondRequests := Store.remove UnbondRequest.key s.unbondRequests (request.id, user) },
        total, acc.refunds ++ [⟨request, nativeToRefund⟩]⟩
    else pure acc

theorem withdrawRequest_ok {t : Nat} {u : Addr} {acc acc' : Withdrawal} {x : UnbondRequest}
    (h : withdrawRequest t u acc x = .ok acc') :
    acc' = acc ∨ ∃ b f, Store.load Batch.id acc.state.previousBatches x.id = some b ∧
      b.reconciled = true ∧ b.estUnbondEndTime < t ∧
      multiplyRatio b.amountUnclaimed x.shares b.totalShares = .ok f ∧
      acc.total + f < 2 ^ 128 ∧ x.shares ≤ b.totalShares ∧ f ≤ b.amountUnclaimed ∧
      acc' = ⟨{ acc.state with
        previousBatches := if b.totalShares - x.shares = 0 then
            Store.remove Batch.id acc.state.previousBatches x.id
          else Store.save Batch.id acc.state.previousBatches
            { b with
              totalShares := b.totalShares - x.shares
              amountUnclaimed := b.amountUnclaimed - f }
        unbondRequests := Store.remove UnbondRequest.key acc.state.unbondRequests (x.id, u) },
        acc.total + f, acc.refunds ++ [⟨x, f⟩]⟩ := by
  unfold withdrawRequest at h
  dsimp only at h
  split at h
  · exact .inl (Except.ok.inj h).symm
  · rename_i b hb
    split at h
    · rename_i hready
      simp only [Bool.and_eq_true, decide_eq_true_eq] at hready
      simp only [bind_eq_ok, add128_eq_ok, sub_eq_ok, pure, Except.pure, Except.ok.injEq] at h
      obtain ⟨f, hf, _, ⟨htot, rfl⟩, _, ⟨hs, rfl⟩, _, ⟨ha, rfl⟩, rfl⟩ := h
      exact .inr ⟨b, f, hb, hready.1, hready.2, hf, htot, hs, ha, rfl⟩
    · exact .inl (Except.ok.inj h).symm

theorem withdrawRequest_frame {t : Nat} {u : Addr} {acc acc' : Withdrawal}
    {req : UnbondRequest} (h : withdrawRequest t u acc req = .ok acc') :
    acc'.state = { acc.state with
      previousBatches := acc'.state.previousBatches
      unbondRequests := acc'.state.unbondRequests } := by
  obtain rfl | ⟨-, -, -, -, -, -, -, -, -, rfl⟩ := withdrawRequest_ok h <;> rfl

theorem foldlM_withdrawRequest_frame {t : Nat} {u : Addr} {reqs : List UnbondRequest}
    {acc acc' : Withdrawal} (h : reqs.foldlM (withdrawRequest t u) acc = .ok acc') :
    acc'.state = { acc.state with
      previousBatches := acc'.state.previousBatches
      unbondRequests := acc'.state.unbondRequests } := by
  induction reqs generalizing acc with
  | nil => cases h; rfl
  | cons req reqs ih =>
    simp only [List.foldlM_cons, bind_eq_ok] at h
    obtain ⟨mid, hmid, h⟩ := h
    rw [ih h, withdrawRequest_frame hmid]

theorem mem_withdrawRequest {t : Nat} {u : Addr} {acc acc' : Withdrawal} {x y : UnbondRequest}
    (h : withdrawRequest t u acc x = .ok acc') (hy : y ∈ acc.state.unbondRequests)
    (hk : y.key ≠ (x.id, u)) : y ∈ acc'.state.unbondRequests := by
  obtain rfl | ⟨-, -, -, -, -, -, -, -, -, rfl⟩ := withdrawRequest_ok h
  · exact hy
  · exact Store.mem_remove.mpr ⟨hy, hk⟩

theorem foldlM_induction_of_remove {W ε : Type} {requests : W → List UnbondRequest}
    {f : W → UnbondRequest → Except ε W} {u : Addr} {P : W → Prop}
    (hkeep : ∀ acc acc' x y, f acc x = .ok acc' → y ∈ requests acc → y.key ≠ (x.id, u) →
      y ∈ requests acc')
    (hstep : ∀ acc acc' x, P acc → x ∈ requests acc → x.user = u → f acc x = .ok acc' → P acc')
    {reqs : List UnbondRequest} {acc out : W} (hreqs : ∀ x ∈ reqs, x ∈ requests acc ∧ x.user = u)
    (hnd : (reqs.map UnbondRequest.key).Nodup) (hP : P acc) (h : reqs.foldlM f acc = .ok out) :
    P out := by
  induction reqs generalizing acc with
  | nil => cases h; exact hP
  | cons x reqs ih =>
    simp only [List.foldlM_cons, bind_eq_ok] at h
    obtain ⟨mid, hmid, h⟩ := h
    rw [List.map_cons, List.nodup_cons] at hnd
    obtain ⟨hx, hu⟩ := hreqs x (List.mem_cons_self _ _)
    refine ih (fun y hy => ⟨hkeep _ _ _ _ hmid (hreqs y (.tail _ hy)).1 ?_,
      (hreqs y (.tail _ hy)).2⟩) hnd.2 (hstep _ _ _ hP hx hu hmid) h
    intro hk
    have hxy : x.key = y.key := by rw [hk, UnbondRequest.key, hu]
    exact hnd.1 (hxy ▸ List.mem_map_of_mem _ hy)

theorem foldlM_withdrawRequest_induction {t : Nat} {u : Addr} {P : Withdrawal → Prop}
    (hstep : ∀ acc acc' x, P acc → x ∈ acc.state.unbondRequests → x.user = u →
      withdrawRequest t u acc x = .ok acc' → P acc')
    {reqs : List UnbondRequest} {acc out : Withdrawal}
    (hreqs : ∀ x ∈ reqs, x ∈ acc.state.unbondRequests ∧ x.user = u)
    (hnd : (reqs.map UnbondRequest.key).Nodup) (hP : P acc)
    (h : reqs.foldlM (withdrawRequest t u) acc = .ok out) : P out :=
  foldlM_induction_of_remove (fun _ _ _ _ h hy hk => mem_withdrawRequest h hy hk) hstep hreqs hnd
    hP h

def withdrawUnbonded (s : State) (env : Env) (user receiver : Addr) :
    Except StdError (State × Response) := do
  let requests := s.unbondRequests.filter (·.user = user)
  let out ← requests.foldlM (withdrawRequest env.time user) ⟨s, 0, []⟩
  if out.total = 0 then throw (.genericErr "withdrawable amount is zero")
  pure (out.state, { messages := [.bankSend receiver out.total s.denom], refunds := out.refunds })

theorem withdrawUnbonded_ok {user receiver : Addr}
    (h : withdrawUnbonded s env user receiver = .ok (s', r)) :
    ∃ out : Withdrawal, out.state = s' ∧ out.refunds = r.refunds ∧ 0 < out.total ∧
      (s.unbondRequests.filter (·.user = user)).foldlM (withdrawRequest env.time user) ⟨s, 0, []⟩ =
        .ok out ∧ r.messages = [.bankSend receiver out.total s.denom] := by
  unfold withdrawUnbonded at h
  obtain ⟨out, h₁, h⟩ := bind_eq_ok.mp h
  by_cases ht : out.total = 0
  · simp [ht] at h
  · simp only [ht, ite_false, pure, Except.pure, Except.ok.injEq, Prod.mk.injEq] at h
    obtain ⟨rfl, rfl⟩ := h
    exact ⟨out, rfl, rfl, Nat.pos_of_ne_zero ht, h₁, rfl⟩

theorem withdrawUnbonded_frame {user receiver : Addr}
    (h : withdrawUnbonded s env user receiver = .ok (s', r)) :
    s' = { s with previousBatches := s'.previousBatches, unbondRequests := s'.unbondRequests } := by
  obtain ⟨out, rfl, -, -, h, -⟩ := withdrawUnbonded_ok h
  exact foldlM_withdrawRequest_frame h

theorem withdrawUnbonded_induction {user receiver : Addr} {P : Withdrawal → Prop}
    (hstep : ∀ acc acc' x, P acc → x ∈ acc.state.unbondRequests → x.user = user →
      withdrawRequest env.time user acc x = .ok acc' → P acc')
    (hnd : (s.unbondRequests.map UnbondRequest.key).Nodup) (hP : P ⟨s, 0, []⟩)
    (h : withdrawUnbonded s env user receiver = .ok (s', r)) :
    ∃ out : Withdrawal, out.state = s' ∧ out.refunds = r.refunds ∧ P out := by
  obtain ⟨out, hs, hr, -, h, -⟩ := withdrawUnbonded_ok h
  refine ⟨out, hs, hr, foldlM_withdrawRequest_induction hstep (fun x hx => ?_)
    (hnd.sublist ((List.filter_sublist _).map _)) hP h⟩
  simpa using List.mem_filter.mp hx

def withdrawUnbondedAdmin (s : State) (env : Env) (user receiver : Addr) :
    Except StdError (State × Response) := do
  assertOwner s user
  withdrawUnbonded s env receiver receiver

theorem withdrawUnbondedAdmin_ok {user receiver : Addr}
    (h : withdrawUnbondedAdmin s env user receiver = .ok (s', r)) :
    user = s.owner ∧ withdrawUnbonded s env receiver receiver = .ok (s', r) := by
  unfold withdrawUnbondedAdmin assertOwner at h
  by_cases ho : user = s.owner <;> simp_all

end LiquidStaking.Hub
