import LiquidStaking.Hub.Execute

/-! The unbonding ledger of the hub. The requests of a batch hold exactly its shares, stored
batches are older than the pending one, and, in the runs whose queued amounts are positive,
every request belongs to the pending batch or to a stored one. -/

namespace LiquidStaking.Hub

def sharesOf (rs : List UnbondRequest) (k : Nat) : Nat :=
  ((rs.filter (·.id = k)).map (·.shares)).sum

section Shares
variable {rs : List UnbondRequest} {k : Nat} {x : UnbondRequest}

theorem sharesOf_cons (x : UnbondRequest) (rs : List UnbondRequest) (k : Nat) :
    sharesOf (x :: rs) k = (if x.id = k then x.shares else 0) + sharesOf rs k := by
  by_cases h : x.id = k <;> simp [sharesOf, List.filter_cons, h]

theorem sharesOf_append (rs rs' : List UnbondRequest) (k : Nat) :
    sharesOf (rs ++ rs') k = sharesOf rs k + sharesOf rs' k := by
  simp [sharesOf, List.filter_append]

theorem sharesOf_perm {rs' : List UnbondRequest} (h : rs.Perm rs') (k : Nat) :
    sharesOf rs k = sharesOf rs' k :=
  ((h.filter _).map _).sum_eq

theorem sharesOf_eq_zero (h : ∀ x ∈ rs, x.id ≠ k) : sharesOf rs k = 0 := by
  induction rs with
  | nil => rfl
  | cons y ys ih =>
    rw [sharesOf_cons, if_neg (h y (List.mem_cons_self _ _)),
      ih fun x hx => h x (List.mem_cons_of_mem _ hx)]

theorem shares_le_sharesOf (hx : x ∈ rs) : x.shares ≤ sharesOf rs x.id :=
  List.le_sum_of_mem (List.mem_map_of_mem _ (List.mem_filter.mpr ⟨hx, by simp⟩))

theorem sharesOf_remove (hnd : (rs.map UnbondRequest.key).Nodup) (hx : x ∈ rs) (k : Nat) :
    sharesOf rs k =
      (if x.id = k then x.shares else 0) + sharesOf (Store.remove UnbondRequest.key rs x.key) k := by
  rw [sharesOf_perm (Store.perm_remove hnd hx), sharesOf_cons]

theorem sharesOf_queue (hnd : (rs.map UnbondRequest.key).Nodup) (id : Nat) (user : Addr)
    (n k : Nat) :
    sharesOf (Store.save UnbondRequest.key rs
      { requestOrDefault rs id user with shares := (requestOrDefault rs id user).shares + n }) k =
      sharesOf rs k + if id = k then n else 0 := by
  unfold requestOrDefault
  cases hl : Store.load UnbondRequest.key rs (id, user) with
  | none =>
    rw [Option.getD_none, Store.save_of_forall_ne (Store.load_eq_none.mp hl), sharesOf_append]
    by_cases h : id = k <;> simp [sharesOf, h]
  | some x =>
    obtain ⟨hx, hk⟩ := (Store.load_eq_some hnd).mp hl
    obtain rfl : x.id = id := congrArg Prod.fst hk
    rw [Option.getD_some, sharesOf_perm (Store.save_perm (v := { x with shares := x.shares + n })
      hnd hx rfl), sharesOf_cons, sharesOf_remove hnd hx k]
    by_cases h : x.id = k <;> simp [h, UnbondRequest.key, Nat.add_right_comm]

end Shares

structure Ledger (p : PendingBatch) (bs : List Batch) (rs : List UnbondRequest) : Prop where
  batch_ids_nodup : (bs.map (·.id)).Nodup
  request_keys_nodup : (rs.map UnbondRequest.key).Nodup
  batch_id_lt : ∀ b ∈ bs, b.id < p.id
  request_id_le : ∀ x ∈ rs, x.id ≤ p.id
  pending_shares : sharesOf rs p.id = p.usteakToBurn
  batch_shares : ∀ b ∈ bs, sharesOf rs b.id = b.totalShares
  amount_lt : ∀ b ∈ bs, b.amountUnclaimed < 2 ^ 128

variable {s s' : State} {env : Env} {q : Querier} {r : Response}

theorem Ledger.instantiate {msg : InstantiateMsg} (h : instantiate env msg = .ok s) :
    Ledger s.pendingBatch s.previousBatches s.unbondRequests := by
  obtain ⟨-, -, -, -, -, -, hp, hb, hr, -⟩ := instantiate_eq_ok h
  rw [hp, hb, hr]
  exact ⟨List.nodup_nil, List.nodup_nil, nofun, nofun, rfl, nofun, nofun⟩

theorem Ledger.queueUnbond {receiver : Addr} {n : Nat}
    (hL : Ledger s.pendingBatch s.previousBatches s.unbondRequests)
    (h : queueUnbond s env receiver n = .ok (s', r)) :
    Ledger s'.pendingBatch s'.previousBatches s'.unbondRequests := by
  obtain ⟨rfl, -⟩ := queueUnbond_ok h
  have hid := congrArg Prod.fst (key_requestOrDefault s.unbondRequests s.pendingBatch.id receiver)
  have hq := sharesOf_queue hL.request_keys_nodup s.pendingBatch.id receiver n
  refine ⟨hL.batch_ids_nodup, Store.nodup_save hL.request_keys_nodup, hL.batch_id_lt, ?_, ?_, ?_,
    hL.amount_lt⟩
  · intro x hx
    rcases Store.mem_save.mp hx with rfl | ⟨hx, -⟩
    · exact hid.le
    · exact hL.request_id_le x hx
  · simp only [hq, if_pos, hL.pending_shares]
  · intro b hb
    rw [hq, if_neg (hL.batch_id_lt b hb).ne', Nat.add_zero]
    exact hL.batch_shares b hb

theorem Ledger.submitBatch (hL : Ledger s.pendingBatch s.previousBatches s.unbondRequests)
    (h : submitBatch s env q = .ok (s', r)) :
    Ledger s'.pendingBatch s'.previousBatches s'.unbondRequests := by
  obtain ⟨-, a, ha, rfl, -⟩ := submitBatch_ok h
  obtain ⟨-, hlt, rfl⟩ := multiplyRatio_eq_ok.mp ha
  have hnew : ∀ b ∈ s.previousBatches, b.id ≠ s.pendingBatch.id := fun b hb =>
    (hL.batch_id_lt b hb).ne
  dsimp only
  rw [Store.save_of_forall_ne hnew]
  refine ⟨?_, hL.request_keys_nodup, ?_, ?_, ?_, ?_, ?_⟩
  · rw [List.map_append, List.nodup_append]
    exact ⟨hL.batch_ids_nodup, List.nodup_singleton _, fun i hi hj => by
      obtain ⟨b, hb, rfl⟩ := List.mem_map.mp hi
      exact hnew b hb (List.mem_singleton.mp hj)⟩
  · simp only [List.mem_append, List.mem_singleton]
    rintro b (hb | rfl)
    · exact Nat.lt_succ_of_lt (hL.batch_id_lt b hb)
    · exact Nat.lt_succ_self _
  · exact fun x hx => Nat.le_succ_of_le (hL.request_id_le x hx)
  · exact sharesOf_eq_zero fun x hx => by have := hL.request_id_le x hx; simp only; omega
  · simp only [List.mem_append, List.mem_singleton]
    rintro b (hb | rfl)
    · exact hL.batch_shares b hb
    · exact hL.pending_shares
  · simp only [List.mem_append, List.mem_singleton]
    rintro b (hb | rfl)
    · exact hL.amount_lt b hb
    · exact hlt

theorem settle_cases {bs : List Batch} {t n : Nat} {b : Batch} (hnd : (bs.map (·.id)).Nodup)
    (hb : b ∈ bs) :
    settle bs t n b = b ∨ b ∈ reconcileSelect bs t ∧ ∃ a ≤ b.amountUnclaimed,
      settle bs t n b = { b with reconciled := true, amountUnclaimed := a } := by
  by_cases hsel : b ∈ reconcileSelect bs t
  · exact .inr ⟨hsel, settle_of_mem hnd hsel⟩
  · exact .inl (settle_of_not_mem hnd hb hsel)

theorem Ledger.reconcile (hL : Ledger s.pendingBatch s.previousBatches s.unbondRequests)
    (h : reconcile s env q = .ok (s', r)) :
    Ledger s'.pendingBatch s'.previousBatches s'.unbondRequests := by
  obtain ⟨rfl, -⟩ := reconcile_ok h
  simp only [foldl_save_settledBatches hL.batch_ids_nodup]
  set n := unclaimedTotal (reconcileSelect s.previousBatches env.time) +
    Coins.find s.unlockedCoins s.denom - q.balance s.denom
  have hfix : ∀ b ∈ s.previousBatches,
      (settle s.previousBatches env.time n b).id = b.id ∧
      (settle s.previousBatches env.time n b).totalShares = b.totalShares ∧
      (settle s.previousBatches env.time n b).amountUnclaimed ≤ b.amountUnclaimed := by
    intro b hb
    rcases settle_cases hL.batch_ids_nodup hb with h | ⟨-, a, ha, h⟩ <;> rw [h]
    · exact ⟨rfl, rfl, le_rfl⟩
    · exact ⟨rfl, rfl, ha⟩
  refine ⟨?_, hL.request_keys_nodup, ?_, hL.request_id_le, hL.pending_shares, ?_, ?_⟩
  · rw [List.map_map]
    convert hL.batch_ids_nodup using 1
    exact List.map_congr_left fun b hb => (hfix b hb).1
  all_goals
    simp only [List.mem_map]
    rintro _ ⟨b, hb, rfl⟩
    obtain ⟨hid, hsh, ha⟩ := hfix b hb
  · exact hid ▸ hL.batch_id_lt b hb
  · rw [hid, hsh]; exact hL.batch_shares b hb
  · exact lt_of_le_of_lt ha (hL.amount_lt b hb)

theorem mem_removeOrSave {bs : List Batch} {k : Nat} {b' c : Batch} {p : Prop} [Decidable p]
    (hc : c ∈ if p then Store.remove Batch.id bs k else Store.save Batch.id bs b')
    (hb' : b'.id = k) :
    ¬p ∧ c = b' ∨ c ∈ bs ∧ c.id ≠ k := by
  split at hc
  · exact .inr (Store.mem_remove.mp hc)
  · rcases Store.mem_save.mp hc with rfl | h
    · exact .inl ⟨‹_›, rfl⟩
    · exact .inr (hb' ▸ h)

theorem nodup_removeOrSave {bs : List Batch} {k : Nat} {b' : Batch} {p : Prop} [Decidable p]
    (hnd : (bs.map (·.id)).Nodup) :
    ((if p then Store.remove Batch.id bs k else Store.save Batch.id bs b').map (·.id)).Nodup := by
  split
  · exact Store.nodup_remove hnd
  · exact Store.nodup_save hnd

theorem Ledger.withdrawRequest {t : Nat} {u : Addr} {acc acc' : Withdrawal} {x : UnbondRequest}
    (hL : Ledger acc.state.pendingBatch acc.state.previousBatches acc.state.unbondRequests)
    (hx : x ∈ acc.state.unbondRequests) (hu : x.user = u)
    (h : withdrawRequest t u acc x = .ok acc') :
    Ledger acc'.state.pendingBatch acc'.state.previousBatches acc'.state.unbondRequests := by
  obtain rfl | ⟨b, f, hb, -, -, -, -, hs, hf, rfl⟩ := withdrawRequest_ok h
  · exact hL
  obtain ⟨hbm, hbx⟩ := (Store.load_eq_some hL.batch_ids_nodup).mp hb
  have hkey : ((x.id, u) : Nat × Addr) = x.key := by rw [UnbondRequest.key, hu]
  have hrem := sharesOf_remove hL.request_keys_nodup hx
  have hlt := hL.batch_id_lt b hbm
  dsimp only
  rw [hkey]
  refine ⟨?_, Store.nodup_remove hL.request_keys_nodup,
    ?_, fun y hy => hL.request_id_le y (Store.mem_remove.mp hy).1, ?_, ?_, ?_⟩
  · exact nodup_removeOrSave hL.batch_ids_nodup
  · intro c hc
    rcases mem_removeOrSave hc hbx with ⟨-, rfl⟩ | ⟨hc, -⟩
    · exact hlt
    · exact hL.batch_id_lt c hc
  · have := hrem acc.state.pendingBatch.id
    rw [if_neg (by omega), Nat.zero_add, hL.pending_shares] at this
    exact this.symm
  · intro c hc
    rcases mem_removeOrSave hc hbx with ⟨-, rfl⟩ | ⟨hc, hne⟩
    · have := hrem b.id
      rw [if_pos hbx.symm, hL.batch_shares b hbm] at this
      dsimp only
      omega
    · have := hrem c.id
      rw [if_neg (Ne.symm hne), Nat.zero_add, hL.batch_shares c hc] at this
      exact this.symm
  · intro c hc
    rcases mem_removeOrSave hc hbx with ⟨-, rfl⟩ | ⟨hc, -⟩
    · exact lt_of_le_of_lt (Nat.sub_le _ _) (hL.amount_lt b hbm)
    · exact hL.amount_lt c hc

theorem Ledger.withdrawUnbonded {user receiver : Addr}
    (hL : Ledger s.pendingBatch s.previousBatches s.unbondRequests)
    (h : withdrawUnbonded s env user receiver = .ok (s', r)) :
    Ledger s'.pendingBatch s'.previousBatches s'.unbondRequests := by
  obtain ⟨out, rfl, -, hout⟩ := withdrawUnbonded_induction
    (P := fun acc => Ledger acc.state.pendingBatch acc.state.previousBatches acc.state.unbondRequests)
    (fun _ _ _ hL hx hu h => hL.withdrawRequest hx hu h) hL.request_keys_nodup hL h
  exact hout

theorem mem_removeOrSave_of_ne {bs : List Batch} {k : Nat} {b' c : Batch} {p : Prop}
    [Decidable p] (hc : c ∈ bs) (hk : c.id ≠ k) (hb' : b'.id = k) :
    c ∈ if p then Store.remove Batch.id bs k else Store.save Batch.id bs b' := by
  split
  · exact Store.mem_remove.mpr ⟨hc, hk⟩
  · exact Store.mem_save.mpr (.inr ⟨hc, hb' ▸ hk⟩)

def QueuesPositive : Operation → Prop
  | .queueUnbond _ n => 0 < n
  | _ => True

structure Queued (p : PendingBatch) (bs : List Batch) (rs : List UnbondRequest) : Prop where
  shares_pos : ∀ x ∈ rs, 0 < x.shares
  request_batch : ∀ x ∈ rs, x.id = p.id ∨ ∃ b ∈ bs, b.id = x.id

theorem Queued.instantiate {msg : InstantiateMsg} (h : instantiate env msg = .ok s) :
    Queued s.pendingBatch s.previousBatches s.unbondRequests := by
  obtain ⟨-, -, -, -, -, -, -, hb, hr, -⟩ := instantiate_eq_ok h
  rw [hb, hr]
  exact ⟨nofun, nofun⟩

theorem Queued.queueUnbond {receiver : Addr} {n : Nat} (hn : 0 < n)
    (hQ : Queued s.pendingBatch s.previousBatches s.unbondRequests)
    (h : queueUnbond s env receiver n = .ok (s', r)) :
    Queued s'.pendingBatch s'.previousBatches s'.unbondRequests := by
  obtain ⟨rfl, -⟩ := queueUnbond_ok h
  have hid := congrArg Prod.fst (key_requestOrDefault s.unbondRequests s.pendingBatch.id receiver)
  constructor <;> intro x hx <;> rcases Store.mem_save.mp hx with rfl | ⟨hx, -⟩
  · exact Nat.add_pos_right _ hn
  · exact hQ.shares_pos x hx
  · exact .inl hid
  · exact hQ.request_batch x hx

theorem Queued.submitBatch (hL : Ledger s.pendingBatch s.previousBatches s.unbondRequests)
    (hQ : Queued s.pendingBatch s.previousBatches s.unbondRequests)
    (h : submitBatch s env q = .ok (s', r)) :
    Queued s'.pendingBatch s'.previousBatches s'.unbondRequests := by
  obtain ⟨-, a, -, rfl, -⟩ := submitBatch_ok h
  refine ⟨hQ.shares_pos, fun x hx => .inr ?_⟩
  rcases hQ.request_batch x hx with hx | ⟨b, hb, hbx⟩
  · exact ⟨_, Store.mem_save.mpr (.inl rfl), hx.symm⟩
  · exact ⟨b, Store.mem_save.mpr (.inr ⟨hb, (hL.batch_id_lt b hb).ne⟩), hbx⟩

theorem Queued.reconcile (hL : Ledger s.pendingBatch s.previousBatches s.unbondRequests)
    (hQ : Queued s.pendingBatch s.previousBatches s.unbondRequests)
    (h : reconcile s env q = .ok (s', r)) :
    Queued s'.pendingBatch s'.previousBatches s'.unbondRequests := by
  obtain ⟨rfl, -⟩ := reconcile_ok h
  simp only [foldl_save_settledBatches hL.batch_ids_nodup]
  refine ⟨hQ.shares_pos, fun x hx => ?_⟩
  rcases hQ.request_batch x hx with hx | ⟨b, hb, hbx⟩
  · exact .inl hx
  · refine .inr ⟨_, List.mem_map_of_mem _ hb, ?_⟩
    rcases settle_cases (n := unclaimedTotal (reconcileSelect s.previousBatches env.time) +
      Coins.find s.unlockedCoins s.denom - q.balance s.denom) hL.batch_ids_nodup hb with
      h | ⟨-, a, -, h⟩ <;> rw [h] <;> exact hbx

theorem Queued.withdrawRequest {t : Nat} {u : Addr} {acc acc' : Withdrawal} {x : UnbondRequest}
    (hL : Ledger acc.state.pendingBatch acc.state.previousBatches acc.state.unbondRequests)
    (hQ : Queued acc.state.pendingBatch acc.state.previousBatches acc.state.unbondRequests)
    (hx : x ∈ acc.state.unbondRequests) (hu : x.user = u)
    (h : withdrawRequest t u acc x = .ok acc') :
    Queued acc'.state.pendingBatch acc'.state.previousBatches acc'.state.unbondRequests := by
  obtain rfl | ⟨b, f, hb, -, -, -, -, hs, -, rfl⟩ := withdrawRequest_ok h
  · exact hQ
  obtain ⟨hbm, hbx⟩ := (Store.load_eq_some hL.batch_ids_nodup).mp hb
  have hkey : ((x.id, u) : Nat × Addr) = x.key := by rw [UnbondRequest.key, hu]
  dsimp only
  rw [hkey]
  refine ⟨fun y hy => hQ.shares_pos y (Store.mem_remove.mp hy).1, fun y hy => ?_⟩
  obtain ⟨hy, hyk⟩ := Store.mem_remove.mp hy
  rcases hQ.request_batch y hy with hp | ⟨c, hc, hcy⟩
  · exact .inl hp
  refine .inr ?_
  by_cases hcx : c.id = x.id
  · obtain rfl : b = c :=
      List.inj_on_of_nodup_map hL.batch_ids_nodup hbm hc (hbx.trans hcx.symm)
    by_cases hz : b.totalShares - x.shares = 0
    · -- the batch is gone, and with it every request of it: `y` would hold no shares
      have hrem := sharesOf_remove hL.request_keys_nodup hx b.id
      rw [if_pos hbx.symm, hL.batch_shares b hbm] at hrem
      have hle := shares_le_sharesOf (Store.mem_remove.mpr ⟨hy, hyk⟩)
      rw [← hcy] at hle
      have := hQ.shares_pos y hy
      omega
    · refine ⟨{ b with
        totalShares := b.totalShares - x.shares
        amountUnclaimed := b.amountUnclaimed - f }, ?_, hcy⟩
      rw [if_neg hz]
      exact Store.mem_save.mpr (.inl rfl)
  · exact ⟨c, mem_removeOrSave_of_ne hc hcx hbx, hcy⟩

theorem Queued.withdrawUnbonded {user receiver : Addr}
    (hL : Ledger s.pendingBatch s.previousBatches s.unbondRequests)
    (hQ : Queued s.pendingBatch s.previousBatches s.unbondRequests)
    (h : withdrawUnbonded s env user receiver = .ok (s', r)) :
    Queued s'.pendingBatch s'.previousBatches s'.unbondRequests := by
  obtain ⟨out, rfl, -, -, hout⟩ := withdrawUnbonded_induction
    (P := fun acc => Ledger acc.state.pendingBatch acc.state.previousBatches acc.state.unbondRequests ∧
      Queued acc.state.pendingBatch acc.state.previousBatches acc.state.unbondRequests)
    (fun _ _ _ hLQ hx hu h => ⟨hLQ.1.withdrawRequest hx hu h, hLQ.2.withdrawRequest hLQ.1 hx hu h⟩)
    hL.request_keys_nodup ⟨hL, hQ⟩ h
  exact hout

section Run
variable (sha256 : List UInt8 → Digest)

theorem Ledger.execute {sender : Addr} {op : Operation}
    (hL : Ledger s.pendingBatch s.previousBatches s.unbondRequests)
    (h : execute sha256 s env q sender op = .ok (s', r)) :
    Ledger s'.pendingBatch s'.previousBatches s'.unbondRequests := by
  have hw := (execute_writes sha256 h).1
  cases op
  case queueUnbond => exact hL.queueUnbond h
  case submitBatch => exact hL.submitBatch h
  case reconcile => exact hL.reconcile h
  case withdrawUnbonded => exact hL.withdrawUnbonded h
  case withdrawUnbondedAdmin => exact hL.withdrawUnbonded (withdrawUnbondedAdmin_ok h).2
  all_goals simp only [Operation.Writes] at hw; rw [hw]; exact hL

theorem Ledger.reachable {allowed : Operation → Prop} {msg : InstantiateMsg} {env₀ : Env}
    {p : Env × State} (hp : Reachable sha256 allowed msg env₀ p) :
    Ledger p.2.pendingBatch p.2.previousBatches p.2.unbondRequests :=
  Reachable.induction sha256 (P := fun p => Ledger p.2.pendingBatch p.2.previousBatches p.2.unbondRequests)
    (fun _ h => Ledger.instantiate h)
    (fun _ _ _ _ _ hL hst => by cases hst with | call _ _ _ _ _ _ _ h => exact hL.execute sha256 h) hp

theorem Queued.execute {sender : Addr} {op : Operation} (hop : QueuesPositive op)
    (hL : Ledger s.pendingBatch s.previousBatches s.unbondRequests)
    (hQ : Queued s.pendingBatch s.previousBatches s.unbondRequests)
    (h : execute sha256 s env q sender op = .ok (s', r)) :
    Queued s'.pendingBatch s'.previousBatches s'.unbondRequests := by
  have hw := (execute_writes sha256 h).1
  cases op
  case queueUnbond => exact hQ.queueUnbond hop h
  case submitBatch => exact hQ.submitBatch hL h
  case reconcile => exact hQ.reconcile hL h
  case withdrawUnbonded => exact hQ.withdrawUnbonded hL h
  case withdrawUnbondedAdmin => exact hQ.withdrawUnbonded hL (withdrawUnbondedAdmin_ok h).2
  all_goals simp only [Operation.Writes] at hw; rw [hw]; exact hQ

theorem Queued.reachable {msg : InstantiateMsg} {env₀ : Env} {p : Env × State}
    (hp : Reachable sha256 QueuesPositive msg env₀ p) :
    Queued p.2.pendingBatch p.2.previousBatches p.2.unbondRequests := by
  refine (Reachable.induction sha256 (P := fun p =>
    Ledger p.2.pendingBatch p.2.previousBatches p.2.unbondRequests ∧
      Queued p.2.pendingBatch p.2.previousBatches p.2.unbondRequests) (fun _ h => ?_) ?_ hp).2
  · exact ⟨Ledger.instantiate h, Queued.instantiate h⟩
  · rintro _ _ _ _ hop ⟨hL, hQ⟩ ⟨_, q, sender, _, -, -, -, h⟩
    exact ⟨hL.execute sha256 h, hQ.execute sha256 hop hL h⟩

/-- In every state reachable by calls whose queued amounts are positive: the requests of the
pending batch hold its `usteak_to_burn`, those of each stored batch its `total_shares`, every
request belongs to the pending batch or to a stored one, and every stored batch is older than
the pending one, so `submit_batch` appends and never overwrites. -/
theorem ledger_balanced_of_reachable {msg : InstantiateMsg} {env₀ env : Env} {s : State}
    (hp : Reachable sha256 QueuesPositive msg env₀ (env, s)) :
    sharesOf s.unbondRequests s.pendingBatch.id = s.pendingBatch.usteakToBurn ∧
    (∀ b ∈ s.previousBatches, sharesOf s.unbondRequests b.id = b.totalShares) ∧
    (∀ x ∈ s.unbondRequests, x.id = s.pendingBatch.id ∨ ∃ b ∈ s.previousBatches, b.id = x.id) ∧
    (∀ b ∈ s.previousBatches, b.id < s.pendingBatch.id) ∧
    (s.previousBatches.map (·.id)).Nodup ∧
    ∀ env' q s' r, submitBatch s env' q = .ok (s', r) →
      ∃ b, b.id = s.pendingBatch.id ∧ s'.previousBatches = s.previousBatches ++ [b] := by
  have hL := Ledger.reachable sha256 hp
  refine ⟨hL.pending_shares, hL.batch_shares, (Queued.reachable sha256 hp).request_batch,
    hL.batch_id_lt, hL.batch_ids_nodup, fun env' q s' r h => ?_⟩
  obtain ⟨-, a, -, rfl, -⟩ := submitBatch_ok h
  exact ⟨_, rfl, Store.save_of_forall_ne fun b hb => (hL.batch_id_lt b hb).ne⟩

theorem ledger_balanced_sample : ∃ env s,
    Reachable zeroDigest QueuesPositive sampleMsg sampleEnv (env, s) ∧
    s.pendingBatch.usteakToBurn = 5 ∧ s.previousBatches.map (·.totalShares) = [10] ∧
    sharesOf s.unbondRequests s.pendingBatch.id = s.pendingBatch.usteakToBurn ∧
    (∀ b ∈ s.previousBatches, sharesOf s.unbondRequests b.id = b.totalShares) ∧
    (∀ x ∈ s.unbondRequests, x.id = s.pendingBatch.id ∨ ∃ b ∈ s.previousBatches, b.id = x.id) ∧
    (∀ b ∈ s.previousBatches, b.id < s.pendingBatch.id) ∧
    (s.previousBatches.map (·.id)).Nodup ∧
    ∀ env' q s' r, submitBatch s env' q = .ok (s', r) →
      ∃ b, b.id = s.pendingBatch.id ∧ s'.previousBatches = s.previousBatches ++ [b] := by
  obtain ⟨env, s, hp, hpend, hbs⟩ : ∃ env s,
      Reachable zeroDigest QueuesPositive sampleMsg sampleEnv (env, s) ∧
      s.pendingBatch.usteakToBurn = 5 ∧ s.previousBatches.map (·.totalShares) = [10] :=
    ⟨_, _, reachable_of_allowed_runCalls zeroDigest
      (sampleCalls ++ ([⟨⟨2074601, 300, "hub"⟩, sampleQuerier, "bob", .queueUnbond "bob" 5⟩] :
        List Call))
      (by simp [sampleCalls, QueuesPositive]) rfl rfl, rfl, rfl⟩
  exact ⟨env, s, hp, hpend, hbs, ledger_balanced_of_reachable zeroDigest hp⟩

end Run

end LiquidStaking.Hub
