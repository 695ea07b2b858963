import LiquidStaking.Hub.Ledger
import LiquidStaking.SteakHub.Execute

/-! The unbonding ledger of the steak hub over whole runs. The pending batch's burn is the
shares queued into it; the recorded shares of a stored batch cover the requests still open in
it, and equal them only until its first withdrawal, since the shrunk batch is never saved; and
every open request with shares in a batch that is no longer pending has its batch stored, so
that only the pending batch and emptied batches can make a withdrawal fail on a missing batch. -/

namespace LiquidStaking.SteakHub

open Hub (PendingBatch UnbondRequest Response sharesOf)

structure Ledger (p : PendingBatch) (bs : List Batch) (rs : List UnbondRequest) : Prop where
  batch_ids_nodup : (bs.map (·.id)).Nodup
  request_keys_nodup : (rs.map UnbondRequest.key).Nodup
  batch_id_lt : ∀ b ∈ bs, b.id < p.id
  request_id_le : ∀ x ∈ rs, x.id ≤ p.id
  pending_shares : sharesOf rs p.id = p.usteakToBurn
  batch_covers : ∀ b ∈ bs, sharesOf rs b.id ≤ b.totalShares
  request_stored : ∀ x ∈ rs, x.id < p.id → 0 < x.shares → ∃ b ∈ bs, b.id = x.id
  unclaimed_lt : ∀ b ∈ bs, b.ulunaUnclaimed < 2 ^ 128

section Step
variable {s s' : State} {env : Env} {q : Querier} {r : Response}

theorem Ledger.instantiate (env : Env) (msg : InstantiateMsg) :
    Ledger (instantiate env msg).pendingBatch [] [] :=
  ⟨List.nodup_nil, List.nodup_nil, nofun, nofun, rfl, nofun, nofun, nofun⟩

theorem Ledger.queueUnbond {stakerAddr : Addr} {n : Nat}
    (hL : Ledger s.pendingBatch s.previousBatches s.unbondRequests)
    (h : queueUnbond s env stakerAddr n = .ok (s', r)) :
    Ledger s'.pendingBatch s'.previousBatches s'.unbondRequests := by
  obtain ⟨-, rfl, -⟩ := queueUnbond_ok h
  have hid := congrArg Prod.fst
    (Hub.key_requestOrDefault s.unbondRequests s.pendingBatch.id stakerAddr)
  have hq := Hub.sharesOf_queue hL.request_keys_nodup s.pendingBatch.id stakerAddr n
  refine ⟨hL.batch_ids_nodup, Store.nodup_save hL.request_keys_nodup, hL.batch_id_lt, ?_, ?_, ?_,
    ?_, hL.unclaimed_lt⟩
  · intro x hx
    rcases Store.mem_save.mp hx with rfl | ⟨hx, -⟩
    · exact hid.le
    · exact hL.request_id_le x hx
  · simp only [hq, if_pos, hL.pending_shares]
  · intro b hb
    rw [hq, if_neg (hL.batch_id_lt b hb).ne', Nat.add_zero]
    exact hL.batch_covers b hb
  · intro x hx hlt hpos
    rcases Store.mem_save.mp hx with rfl | ⟨hx, -⟩
    · exact absurd hid hlt.ne
    · exact hL.request_stored x hx hlt hpos

theorem Ledger.submitBatch (hL : Ledger s.pendingBatch s.previousBatches s.unbondRequests)
    (h : submitBatch s env q = .ok (s', r)) :
    Ledger s'.pendingBatch s'.previousBatches s'.unbondRequests := by
  obtain ⟨-, a, -, -, ha, rfl, -⟩ := submitBatch_ok h
  obtain ⟨-, hlt, rfl⟩ := multiplyRatio_eq_ok.mp ha
  have hnew : ∀ b ∈ s.previousBatches, b.id ≠ s.pendingBatch.id := fun b hb =>
    (hL.batch_id_lt b hb).ne
  dsimp only
  rw [Store.save_of_forall_ne hnew]
  refine ⟨?_, hL.request_keys_nodup, ?_, fun x hx => Nat.le_succ_of_le (hL.request_id_le x hx),
    Hub.sharesOf_eq_zero fun x hx => (Nat.lt_succ_of_le (hL.request_id_le x hx)).ne, ?_, ?_, ?_⟩
  · rw [List.map_append, List.nodup_append]
    exact ⟨hL.batch_ids_nodup, List.nodup_singleton _, fun i hi hj => by
      obtain ⟨b, hb, rfl⟩ := List.mem_map.mp hi
      exact hnew b hb (List.mem_singleton.mp hj)⟩
  all_goals simp only [List.mem_append, List.mem_singleton]
  · rintro b (hb | rfl)
    · exact Nat.lt_succ_of_lt (hL.batch_id_lt b hb)
    · exact Nat.lt_succ_self _
  · rintro b (hb | rfl)
    · exact hL.batch_covers b hb
    · exact hL.pending_shares.le
  · intro x hx hlt hpos
    rcases Nat.lt_succ_iff_lt_or_eq.mp hlt with hlt | heq
    · obtain ⟨b, hb, hbx⟩ := hL.request_stored x hx hlt hpos
      exact ⟨b, .inl hb, hbx⟩
    · exact ⟨_, .inr rfl, heq.symm⟩
  · rintro b (hb | rfl)
    · exact hL.unclaimed_lt b hb
    · exact hlt

theorem Ledger.withdrawRequest {t : Nat} {u : Addr} {acc acc' : Withdrawal} {x : UnbondRequest}
    (hL : Ledger acc.state.pendingBatch acc.state.previousBatches acc.state.unbondRequests)
    (hx : x ∈ acc.state.unbondRequests) (hu : x.user = u)
    (h : withdrawRequest t u acc x = .ok acc') :
    Ledger acc'.state.pendingBatch acc'.state.previousBatches acc'.state.unbondRequests := by
  have hbs := fun c (hc : c ∈ acc'.state.previousBatches) => mem_withdrawRequest_batches h hc
  obtain ⟨b, hb, ⟨-, rfl⟩ | ⟨-, -, hs, -, rfl⟩⟩ := withdrawRequest_ok h
  · exact hL
  obtain ⟨hbm, hbx⟩ := (Store.load_eq_some hL.batch_ids_nodup).mp hb
  have hkey : ((x.id, u) : Nat × Addr) = x.key := by rw [UnbondRequest.key, hu]
  have hrem := Hub.sharesOf_remove hL.request_keys_nodup hx
  have hold : ∀ y ∈ Store.remove UnbondRequest.key acc.state.unbondRequests x.key,
      y ∈ acc.state.unbondRequests := fun y hy => (Store.mem_remove.mp hy).1
  have hle : ∀ k, sharesOf (Store.remove UnbondRequest.key acc.state.unbondRequests x.key) k ≤
      sharesOf acc.state.unbondRequests k := fun k => by rw [hrem k]; exact Nat.le_add_left _ _
  have hpend : x.id ≠ acc.state.pendingBatch.id := hbx ▸ (hL.batch_id_lt b hbm).ne
  dsimp only at hbs ⊢
  rw [hkey]
  refine ⟨?_, Store.nodup_remove hL.request_keys_nodup, fun c hc => hL.batch_id_lt c (hbs c hc),
    fun y hy => hL.request_id_le y (hold y hy),
    by rw [← hL.pending_shares, hrem, if_neg hpend, Nat.zero_add],
    fun c hc => (hle c.id).trans (hL.batch_covers c (hbs c hc)), fun y hy => ?_,
    fun c hc => hL.unclaimed_lt c (hbs c hc)⟩
  all_goals split
  · exact Store.nodup_remove hL.batch_ids_nodup
  · exact hL.batch_ids_nodup
  · -- the batch is gone: the request held all its shares, so no other request of it has any
    rename_i hz
    intro hlt hpos
    by_cases hyx : y.id = x.id
    · have hall := hL.batch_covers b hbm
      rw [hbx, hrem, if_pos rfl] at hall
      have := Hub.shares_le_sharesOf hy
      rw [hyx] at this
      omega
    · obtain ⟨c, hc, hcy⟩ := hL.request_stored y (hold y hy) hlt hpos
      exact ⟨c, Store.mem_remove.mpr ⟨hc, hcy ▸ hyx⟩, hcy⟩
  · exact hL.request_stored y (hold y hy)

theorem Ledger.withdrawUnbonded {u : Addr}
    (hL : Ledger s.pendingBatch s.previousBatches s.unbondRequests)
    (h : withdrawUnbonded s env u = .ok (s', r)) :
    Ledger s'.pendingBatch s'.previousBatches s'.unbondRequests := by
  obtain ⟨out, rfl, -, hout⟩ := withdrawUnbonded_induction
    (P := fun acc => Ledger acc.state.pendingBatch acc.state.previousBatches
      acc.state.unbondRequests)
    (fun _ _ _ hL hx hu h => hL.withdrawRequest hx hu h) hL.request_keys_nodup hL h
  exact hout

theorem Ledger.execute {sender : Addr} {op : Operation}
    (hL : Ledger s.pendingBatch s.previousBatches s.unbondRequests)
    (h : execute s env q sender op = .ok (s', r)) :
    Ledger s'.pendingBatch s'.previousBatches s'.unbondRequests := by
  have hw := (execute_writes h).1
  cases op
  case queueUnbond => exact hL.queueUnbond h
  case submitBatch => exact hL.submitBatch h
  case withdrawUnbonded => exact hL.withdrawUnbonded h
  all_goals simp only [Operation.Writes] at hw; rw [hw]; exact hL

end Step

def Operation.queued : Operation → Nat
  | .queueUnbond _ usteakToBurn => usteakToBurn
  | _ => 0

def burned (r : Response) : Nat :=
  (r.messages.map fun
    | .burn _ amount => amount
    | _ => 0).sum

theorem burned_eq_zero {r : Response}
    (h : ∀ m ∈ r.messages, ∀ token amount, m ≠ .burn token amount) : burned r = 0 :=
  List.sum_eq_zero fun n hn => by
    obtain ⟨m, hm, rfl⟩ := List.mem_map.mp hn
    cases m <;> first | rfl | exact absurd rfl (h _ hm _ _)

section Step
variable {s s' : State} {env : Env} {q : Querier} {sender : Addr} {r : Response}

theorem burned_execute {op : Operation} (h : execute s env q sender op = .ok (s', r))
    (hop : op ≠ .submitBatch) : burned r = 0 := by
  refine burned_eq_zero fun m hm token amount hb => ?_
  subst hb
  cases op <;> simp only [execute] at h
  case bond => obtain ⟨_, _, -, -, rfl⟩ := bond_ok h; simp [delegateMsgs] at hm
  case harvest => obtain ⟨-, -, rfl⟩ := harvest_ok h; simp at hm
  case swap => obtain ⟨-, rfl⟩ := swap_ok h; simp at hm
  case reinvest => obtain ⟨_, -, rfl, -⟩ := reinvest_ok h; simp [delegateMsgs] at hm
  case registerReceivedCoins => obtain ⟨-, rfl⟩ := registerReceivedCoins_ok h; cases hm
  case registerSteakToken => obtain ⟨-, rfl⟩ := registerSteakToken_ok h; cases hm
  case queueUnbond => obtain ⟨-, -, rfl⟩ := queueUnbond_ok h; split at hm <;> simp at hm
  case submitBatch => exact absurd rfl hop
  case withdrawUnbonded => obtain ⟨_, -, -, rfl⟩ := withdrawUnbonded_ok h; simp at hm

theorem pendingBurn_execute {op : Operation} (h : execute s env q sender op = .ok (s', r)) :
    s.pendingBatch.usteakToBurn + op.queued = s'.pendingBatch.usteakToBurn + burned r := by
  have hw := (execute_writes h).1
  cases op
  case queueUnbond => obtain ⟨-, rfl, rfl⟩ := queueUnbond_ok h; split <;> rfl
  case submitBatch =>
    obtain ⟨-, -, -, -, -, rfl, rfl⟩ := submitBatch_ok h
    simp [burned, Operation.queued]
  all_goals
    rw [burned_execute h nofun]
    simp only [Operation.Writes] at hw
    rw [hw]
    rfl

end Step

theorem pendingBurn_log {p p' : Env × State} {l : List (Operation × Response)} (hl : Log p l p') :
    p.2.pendingBatch.usteakToBurn + (l.map (·.1.queued)).sum =
      p'.2.pendingBatch.usteakToBurn + (l.map (burned ·.2)).sum := by
  induction hl with
  | nil => simp
  | snoc _ hst ih =>
    cases hst with
    | call _ _ _ _ _ _ _ h =>
      have := pendingBurn_execute h
      simp only [List.map_append, List.sum_append, List.map_singleton, List.sum_singleton] at ih ⊢
      omega

variable {msg : InstantiateMsg} {env₀ : Env}

theorem Ledger.reachable {p : Env × State} (hp : Reachable msg env₀ p) :
    Ledger p.2.pendingBatch p.2.previousBatches p.2.unbondRequests :=
  Reachable.induction (P := fun p => Ledger p.2.pendingBatch p.2.previousBatches p.2.unbondRequests)
    (Ledger.instantiate env₀ msg)
    (fun _ _ _ _ _ hL hst => by cases hst with | call _ _ _ _ _ _ _ h => exact hL.execute h) hp

/-- In every reachable state of the steak hub, batch ids are distinct and below the pending
batch's, request keys are distinct, the pending batch's burn is the shares of the requests
queued into it, the recorded shares of each stored batch cover those of its open requests, and
every open request with shares in an older batch has its batch stored. -/
theorem steak_ledger_of_reachable {p : Env × State} (hp : Reachable msg env₀ p) :
    (p.2.previousBatches.map (·.id)).Nodup ∧ (p.2.unbondRequests.map UnbondRequest.key).Nodup ∧
    (∀ b ∈ p.2.previousBatches, b.id < p.2.pendingBatch.id) ∧
    sharesOf p.2.unbondRequests p.2.pendingBatch.id = p.2.pendingBatch.usteakToBurn ∧
    (∀ b ∈ p.2.previousBatches, sharesOf p.2.unbondRequests b.id ≤ b.totalShares) ∧
    ∀ x ∈ p.2.unbondRequests, x.id < p.2.pendingBatch.id → 0 < x.shares →
      ∃ b ∈ p.2.previousBatches, b.id = x.id :=
  have hL := Ledger.reachable hp
  ⟨hL.batch_ids_nodup, hL.request_keys_nodup, hL.batch_id_lt, hL.pending_shares, hL.batch_covers,
    hL.request_stored⟩

theorem steak_ledger_of_reachable_sample : ∃ p, Reachable sampleMsg sampleEnv p ∧
    p.2.previousBatches = [⟨1, 3, 10, 2074600⟩] ∧
    sharesOf p.2.unbondRequests 1 ≤ 3 ∧ ∀ b ∈ p.2.previousBatches, b.id < p.2.pendingBatch.id := by
  have hp : Reachable sampleMsg sampleEnv _ := reachable_of_runCalls unbondCalls rfl
  exact ⟨_, hp, rfl, (steak_ledger_of_reachable hp).2.2.2.2.1 _ (List.mem_singleton_self _),
    (steak_ledger_of_reachable hp).2.2.1⟩

/-- Over every run from instantiation, the Steak queued for unbonding is the Steak that
`submit_batch` burned plus the burn of the pending batch, which is the shares its requests hold:
every queued Steak is burned exactly once, or still waits in the pending batch. -/
theorem queued_steak_burned_once {p : Env × State} {l : List (Operation × Response)}
    (hl : Log (env₀, instantiate env₀ msg) l p) :
    (l.map (·.1.queued)).sum = (l.map (burned ·.2)).sum + p.2.pendingBatch.usteakToBurn ∧
    p.2.pendingBatch.usteakToBurn = sharesOf p.2.unbondRequests p.2.pendingBatch.id := by
  have h := pendingBurn_log hl
  dsimp only [instantiate] at h
  exact ⟨by omega, (Ledger.reachable ⟨l, hl⟩).pending_shares.symm⟩

theorem queued_steak_burned_once_sample : ∃ p l, Log (sampleEnv, instantiate sampleEnv sampleMsg) l p ∧
    (l.map (·.1.queued)).sum = 3 ∧ (l.map (burned ·.2)).sum = 3 ∧
    p.2.pendingBatch.usteakToBurn = sharesOf p.2.unbondRequests p.2.pendingBatch.id := by
  have hl := runCalls_log (p := (sampleEnv, instantiate sampleEnv sampleMsg)) unbondCalls rfl
  exact ⟨_, _, hl, rfl, rfl, (queued_steak_burned_once hl).2⟩

end LiquidStaking.SteakHub
