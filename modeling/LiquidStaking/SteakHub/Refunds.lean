import LiquidStaking.Hub.Refunds
import LiquidStaking.SteakHub.Ledger

/-! What the steak hub's `withdraw_unbonded` does in every reachable state. Each open request
of the staker must have its batch stored, or the call fails; a request whose batch has ended is
paid its share of the batch as stored and taken out, and the others stay. No two requests of one
staker share a batch, so no pass of the loop touches the batch of another. The call goes
through exactly when those batches are stored, the ended ones have shares, and the refunds fit a
`Uint128`. -/

namespace LiquidStaking.SteakHub

open Hub (UnbondRequest Response)

def endedBatch (bs : List Batch) (t : Nat) (x : UnbondRequest) : Option Batch :=
  (Store.load Batch.id bs x.id).filter (·.estUnbondEndTime < t)

def refundOf (bs : List Batch) (t : Nat) (x : UnbondRequest) : Nat :=
  ((endedBatch bs t x).map fun b => b.ulunaUnclaimed * x.shares / b.totalShares).getD 0

def refundTotal (s : State) (t : Nat) (u : Addr) : Nat :=
  ((s.unbondRequests.filter (·.user = u)).map (refundOf s.previousBatches t)).sum

section Step
variable {t : Nat} {u : Addr} {acc acc' : Withdrawal} {x : UnbondRequest} {b : Batch}
  {bs bs' : List Batch}

theorem endedBatch_of_load (hb : Store.load Batch.id bs x.id = some b) :
    endedBatch bs t x = if b.estUnbondEndTime < t then some b else none := by
  simp only [endedBatch, hb, Option.filter_some, decide_eq_true_eq]

theorem refundOf_congr (h : Store.load Batch.id bs' x.id = Store.load Batch.id bs x.id) :
    refundOf bs' t x = refundOf bs t x := by
  rw [refundOf, endedBatch, h, refundOf, endedBatch]

theorem withdrawRequest_spec (h : withdrawRequest t u acc x = .ok acc') :
    (∃ b, Store.load Batch.id acc.state.previousBatches x.id = some b ∧
      (b.estUnbondEndTime < t → 0 < b.totalShares)) ∧
    acc'.total = acc.total + refundOf acc.state.previousBatches t x ∧
    (acc.total < 2 ^ 128 → acc'.total < 2 ^ 128) ∧
    (∀ k, k ≠ x.id → Store.load Batch.id acc'.state.previousBatches k =
      Store.load Batch.id acc.state.previousBatches k) ∧
    ∀ y, y ∈ acc'.state.unbondRequests ↔ y ∈ acc.state.unbondRequests ∧
      ((endedBatch acc.state.previousBatches t x).isSome → y.key ≠ (x.id, u)) := by
  obtain ⟨b, hb, ⟨hle, hacc⟩ | ⟨hend, hT, -, htot, rfl⟩⟩ := withdrawRequest_ok h
  · obtain rfl := hacc.symm
    have hn : endedBatch acc.state.previousBatches t x = none := by
      rw [endedBatch_of_load hb, if_neg (Nat.not_lt.mpr hle)]
    exact ⟨⟨b, hb, fun h => absurd h (Nat.not_lt.mpr hle)⟩, by simp [refundOf, hn], id,
      fun _ _ => rfl, fun y => by simp [hn]⟩
  · have hs : endedBatch acc.state.previousBatches t x = some b := by
      rw [endedBatch_of_load hb, if_pos hend]
    refine ⟨⟨b, hb, fun _ => hT⟩, by simp [refundOf, hs], fun _ => htot, fun k hk => ?_,
      fun y => by simp [hs, Store.mem_remove]⟩
    dsimp only
    split
    · exact Store.load_remove_of_ne (Ne.symm hk)
    · rfl

theorem withdrawRequest_exists (hb : Store.load Batch.id acc.state.previousBatches x.id = some b)
    (hT : b.estUnbondEndTime < t → 0 < b.totalShares) (hs : x.shares ≤ b.totalShares)
    (hU : b.ulunaUnclaimed < 2 ^ 128)
    (htot : acc.total + refundOf acc.state.previousBatches t x < 2 ^ 128) :
    ∃ acc', withdrawRequest t u acc x = .ok acc' := by
  unfold withdrawRequest
  simp only [hb]
  split
  · rename_i hend
    have hf : b.ulunaUnclaimed * x.shares / b.totalShares ≤ b.ulunaUnclaimed :=
      Nat.div_le_of_le_mul (by rw [Nat.mul_comm b.totalShares]; exact Nat.mul_le_mul_left _ hs)
    simp only [refundOf, endedBatch_of_load hb, if_pos hend, Option.map_some',
      Option.getD_some] at htot
    simp only [multiplyRatio_of_le hU (hT hend) hs, ok_bind, add128, addWithin_of_lt htot, sub,
      subWithin_of_le hs, subWithin_of_le hf]
    exact ⟨_, rfl⟩
  · exact ⟨acc, rfl⟩

end Step

section Loop
variable {t : Nat} {u : Addr} {acc out : Withdrawal} {reqs : List UnbondRequest}

theorem load_withdrawRequest {acc' : Withdrawal} {x : UnbondRequest}
    {ys : List UnbondRequest} (h : withdrawRequest t u acc x = .ok acc')
    (hx : x.id ∉ ys.map (·.id)) :
    (∀ y ∈ ys, Store.load Batch.id acc'.state.previousBatches y.id =
      Store.load Batch.id acc.state.previousBatches y.id) ∧
    ys.map (refundOf acc'.state.previousBatches t) =
      ys.map (refundOf acc.state.previousBatches t) := by
  have hsame : ∀ y ∈ ys, Store.load Batch.id acc'.state.previousBatches y.id =
      Store.load Batch.id acc.state.previousBatches y.id := fun y hy =>
    (withdrawRequest_spec h).2.2.2.1 y.id fun he => hx (he ▸ List.mem_map_of_mem _ hy)
  exact ⟨hsame, List.map_congr_left fun y hy => refundOf_congr (hsame y hy)⟩

theorem foldlM_withdrawRequest_spec (hids : (reqs.map (·.id)).Nodup)
    (h : reqs.foldlM (withdrawRequest t u) acc = .ok out) :
    (∀ x ∈ reqs, ∃ b, Store.load Batch.id acc.state.previousBatches x.id = some b ∧
      (b.estUnbondEndTime < t → 0 < b.totalShares)) ∧
    out.total = acc.total + (reqs.map (refundOf acc.state.previousBatches t)).sum ∧
    (acc.total < 2 ^ 128 → out.total < 2 ^ 128) ∧
    ∀ y, y ∈ out.state.unbondRequests ↔ y ∈ acc.state.unbondRequests ∧
      ∀ x ∈ reqs, (endedBatch acc.state.previousBatches t x).isSome → y.key ≠ (x.id, u) := by
  induction reqs generalizing acc with
  | nil => cases h; simp
  | cons x xs ih =>
    rw [List.map_cons, List.nodup_cons] at hids
    simp only [List.foldlM_cons, bind_eq_ok] at h
    obtain ⟨mid, hmid, h⟩ := h
    obtain ⟨hst, htot, hlt, -, hmem⟩ := withdrawRequest_spec hmid
    obtain ⟨hsame, hsum⟩ := load_withdrawRequest hmid hids.1
    obtain ⟨hst', htot', hlt', hmem'⟩ := ih hids.2 h
    refine ⟨?_, ?_, hlt' ∘ hlt, fun y => ?_⟩
    · rintro z (_ | ⟨_, hz⟩)
      · exact hst
      · rw [← hsame z hz]
        exact hst' z hz
    · rw [htot', htot, hsum, List.map_cons, List.sum_cons]
      omega
    · rw [hmem', hmem, List.forall_mem_cons, and_assoc]
      refine and_congr_right fun _ => and_congr_right fun _ => forall₂_congr fun z hz => ?_
      rw [endedBatch, hsame z hz, endedBatch]

theorem foldlM_withdrawRequest_exists (hids : (reqs.map (·.id)).Nodup)
    (hready : ∀ x ∈ reqs, ∃ b, Store.load Batch.id acc.state.previousBatches x.id = some b ∧
      (b.estUnbondEndTime < t → 0 < b.totalShares) ∧ x.shares ≤ b.totalShares ∧
      b.ulunaUnclaimed < 2 ^ 128)
    (htot : acc.total + (reqs.map (refundOf acc.state.previousBatches t)).sum < 2 ^ 128) :
    ∃ out, reqs.foldlM (withdrawRequest t u) acc = .ok out := by
  induction reqs generalizing acc with
  | nil => exact ⟨acc, rfl⟩
  | cons x xs ih =>
    rw [List.map_cons, List.nodup_cons] at hids
    rw [List.map_cons, List.sum_cons] at htot
    obtain ⟨b, hb, hT, hs, hU⟩ := hready x (List.mem_cons_self _ _)
    obtain ⟨mid, hmid⟩ := withdrawRequest_exists (u := u) hb hT hs hU (by omega)
    obtain ⟨hsame, hsum⟩ := load_withdrawRequest hmid hids.1
    obtain ⟨out, hout⟩ := ih hids.2
      (fun y hy => by rw [hsame y hy]; exact hready y (List.mem_cons_of_mem _ hy))
      (by rw [(withdrawRequest_spec hmid).2.1, hsum]; omega)
    exact ⟨out, by rw [List.foldlM_cons, hmid, ok_bind]; exact hout⟩

end Loop

theorem Ledger.batch_bounds {p : Hub.PendingBatch} {bs : List Batch} {rs : List UnbondRequest}
    (hL : Ledger p bs rs) {x : UnbondRequest} (hx : x ∈ rs) {b : Batch}
    (hb : Store.load Batch.id bs x.id = some b) :
    x.shares ≤ b.totalShares ∧ b.ulunaUnclaimed < 2 ^ 128 := by
  have hmem := Store.mem_of_load hb
  have hcov := hL.batch_covers b hmem
  rw [Store.key_of_load hb] at hcov
  exact ⟨(Hub.shares_le_sharesOf hx).trans hcov, hL.unclaimed_lt b hmem⟩

section Withdraw
variable {s s' : State} {env : Env} {u : Addr} {r : Response}

theorem withdrawUnbonded_spec (hnd : (s.unbondRequests.map UnbondRequest.key).Nodup)
    (h : withdrawUnbonded s env u = .ok (s', r)) :
    r.messages = [.bankSend u (refundTotal s env.time u) "uluna"] ∧
      ∀ y, y ∈ s'.unbondRequests ↔
        y ∈ s.unbondRequests ∧ (y.user = u → endedBatch s.previousBatches env.time y = none) := by
  obtain ⟨acc, hf, rfl, rfl⟩ := withdrawUnbonded_ok h
  obtain ⟨-, htot, -, hmem⟩ := foldlM_withdrawRequest_spec (Hub.nodup_ids_filter_user hnd u) hf
  refine ⟨by rw [htot, Nat.zero_add]; rfl, fun y => ?_⟩
  rw [hmem y]
  refine and_congr_right fun hy => ⟨fun H hyu => ?_, fun H x hx hxr hk => ?_⟩
  · cases hr : endedBatch s.previousBatches env.time y with
    | none => rfl
    | some b =>
      exact absurd (by simp [UnbondRequest.key, hyu])
        (H y (List.mem_filter.mpr ⟨hy, decide_eq_true hyu⟩) (by simp [hr]))
  · obtain ⟨hx, hxu⟩ := List.mem_filter.mp hx
    obtain rfl : y = x := List.inj_on_of_nodup_map hnd hy hx
      (hk.trans (by simp [UnbondRequest.key, of_decide_eq_true hxu]))
    simp [H (of_decide_eq_true hxu)] at hxr

theorem user_of_mem_refunds (hnd : (s.unbondRequests.map UnbondRequest.key).Nodup)
    (h : withdrawUnbonded s env u = .ok (s', r)) : ∀ f ∈ r.refunds, f.request.user = u := by
  obtain ⟨out, -, hr, hout⟩ := withdrawUnbonded_induction
    (P := fun acc => ∀ f ∈ acc.refunds, f.request.user = u) (fun acc acc' x hP _ hu h => by
      obtain ⟨b, -, ⟨-, rfl⟩ | ⟨-, -, -, -, rfl⟩⟩ := withdrawRequest_ok h
      · exact hP
      · intro f hf
        rcases List.mem_append.mp hf with hf | hf
        · exact hP f hf
        · rw [List.mem_singleton.mp hf]; exact hu)
    hnd (fun _ hf => nomatch hf) h
  rw [← hr]
  exact hout

end Withdraw

variable {msg : InstantiateMsg} {env₀ : Env}

/-- In every reachable state of the steak hub, a staker's `withdraw_unbonded` goes through
exactly when each of their open requests has its batch stored, with shares once the batch has
ended, and what they are owed fits a `Uint128`; and when it goes through it sends what they are
owed and takes out exactly their requests whose batch has ended. -/
theorem withdrawUnbonded_iff_stored {p : Env × State} (hp : Reachable msg env₀ p) (env : Env)
    (u : Addr) :
    ((∃ out, withdrawUnbonded p.2 env u = .ok out) ↔
      (∀ x ∈ p.2.unbondRequests, x.user = u → ∃ b ∈ p.2.previousBatches, b.id = x.id ∧
        (b.estUnbondEndTime < env.time → 0 < b.totalShares)) ∧
      refundTotal p.2 env.time u < 2 ^ 128) ∧
    ∀ s' r, withdrawUnbonded p.2 env u = .ok (s', r) →
      r.messages = [.bankSend u (refundTotal p.2 env.time u) "uluna"] ∧
      ∀ y, y ∈ s'.unbondRequests ↔
        y ∈ p.2.unbondRequests ∧ (y.user = u → endedBatch p.2.previousBatches env.time y = none) := by
  have hL := Ledger.reachable hp
  have hnd := hL.request_keys_nodup
  have hids := Hub.nodup_ids_filter_user hnd u
  have hload : ∀ x : UnbondRequest, ∀ b, Store.load Batch.id p.2.previousBatches x.id = some b ↔
      b ∈ p.2.previousBatches ∧ b.id = x.id := fun _ _ => Store.load_eq_some hL.batch_ids_nodup
  refine ⟨⟨fun ⟨out, h⟩ => ?_, fun ⟨hst, htot⟩ => ?_⟩, fun s' r h => withdrawUnbonded_spec hnd h⟩
  · obtain ⟨acc, hf, -, -⟩ := withdrawUnbonded_ok h
    obtain ⟨hst, htot, hlt, -⟩ := foldlM_withdrawRequest_spec hids hf
    refine ⟨fun x hx hxu => ?_, ?_⟩
    · obtain ⟨b, hb, hT⟩ := hst x (List.mem_filter.mpr ⟨hx, decide_eq_true hxu⟩)
      obtain ⟨hbm, hbx⟩ := (hload x b).mp hb
      exact ⟨b, hbm, hbx, hT⟩
    · have := hlt (by norm_num)
      dsimp only at htot
      unfold refundTotal
      omega
  · obtain ⟨acc, hf⟩ : ∃ acc, (p.2.unbondRequests.filter (·.user = u)).foldlM
        (withdrawRequest env.time u) ⟨p.2, 0, []⟩ = .ok acc := foldlM_withdrawRequest_exists hids
      (fun x hx => by
        obtain ⟨hx, hxu⟩ := List.mem_filter.mp hx
        obtain ⟨b, hb, hbx, hT⟩ := hst x hx (of_decide_eq_true hxu)
        have hl := (hload x b).mpr ⟨hb, hbx⟩
        exact ⟨b, hl, hT, hL.batch_bounds hx hl⟩)
      (by dsimp only; unfold refundTotal at htot; omega)
    exact ⟨_, by rw [withdrawUnbonded, hf]; rfl⟩

theorem withdrawUnbonded_iff_stored_sample : ∃ p, Reachable sampleMsg sampleEnv p ∧
    (∃ out, withdrawUnbonded p.2 ⟨2074601, 300, "hub"⟩ "alice" = .ok out) ∧
    ∀ s' r, withdrawUnbonded p.2 ⟨2074601, 300, "hub"⟩ "alice" = .ok (s', r) →
      r.messages = [.bankSend "alice" 3 "uluna"] := by
  have hp : Reachable sampleMsg sampleEnv _ := reachable_of_runCalls (unbondCalls.take 5) rfl
  have h := withdrawUnbonded_iff_stored hp ⟨2074601, 300, "hub"⟩ "alice"
  exact ⟨_, hp, h.1.mpr ⟨by decide, by decide⟩, fun s' r hr => (h.2 s' r hr).1⟩

section Custody
variable {s s' : State} {env : Env} {q : Querier} {sender : Addr} {op : Operation} {r : Response}
  {x : UnbondRequest}

theorem user_of_withdrawn {u : Addr} (hnd : (s.unbondRequests.map UnbondRequest.key).Nodup)
    (h : withdrawUnbonded s env u = .ok (s', r))
    (hx : (x ∈ s.unbondRequests ∧ ∀ y ∈ s'.unbondRequests, y.key ≠ x.key) ∨
      ∃ f, ⟨x, f⟩ ∈ r.refunds) : x.user = u := by
  rcases hx with ⟨hx, hgone⟩ | ⟨f, hf⟩
  · by_contra hne
    exact hgone x (((withdrawUnbonded_spec hnd h).2 x).mpr ⟨hx, fun hu => absurd hu hne⟩) rfl
  · exact user_of_mem_refunds hnd h _ hf

theorem not_withdrawn_of_execute (h : execute s env q sender op = .ok (s', r))
    (hop : op ≠ .withdrawUnbonded) :
    ¬((x ∈ s.unbondRequests ∧ ∀ y ∈ s'.unbondRequests, y.key ≠ x.key) ∨
      ∃ f, ⟨x, f⟩ ∈ r.refunds) := by
  rintro (⟨hx, hgone⟩ | ⟨f, hf⟩)
  · have hw := (execute_writes h).1
    cases op <;> simp only [execute] at h
    case queueUnbond stakerAddr _ =>
      obtain ⟨-, rfl, -⟩ := queueUnbond_ok h
      by_cases hk : x.key = (Hub.requestOrDefault s.unbondRequests s.pendingBatch.id stakerAddr).key
      · exact hgone _ (Store.mem_save.mpr (.inl rfl)) hk.symm
      · exact hgone x (Store.mem_save.mpr (.inr ⟨hx, hk⟩)) rfl
    case withdrawUnbonded => exact hop rfl
    all_goals simp only [Operation.Writes] at hw; rw [hw] at hgone; exact hgone x hx rfl
  · rw [(execute_writes h).2.resolve_right hop] at hf
    nomatch hf

/-- Only a staker's own `withdraw_unbonded` moves the staker's unbonded `uluna`, and it pays the
staker. From a reachable state of the steak hub, a call that takes out a stored request, or
pays a refund for one, is `withdraw_unbonded` sent by the request's staker, and it sends what
the staker is owed to the staker. -/
theorem unbonded_funds_paid_only_to_staker {p : Env × State} (hp : Reachable msg env₀ p)
    (h : execute p.2 env q sender op = .ok (s', r)) (x : UnbondRequest)
    (hx : (x ∈ p.2.unbondRequests ∧ ∀ y ∈ s'.unbondRequests, y.key ≠ x.key) ∨
      ∃ f, ⟨x, f⟩ ∈ r.refunds) :
    x.user = sender ∧ op = .withdrawUnbonded ∧
      r.messages = [.bankSend sender (refundTotal p.2 env.time sender) "uluna"] := by
  have hnd := (Ledger.reachable hp).request_keys_nodup
  by_cases hop : op = .withdrawUnbonded
  · subst hop
    exact ⟨user_of_withdrawn hnd h hx, rfl, (withdrawUnbonded_spec hnd h).1⟩
  · exact absurd hx (not_withdrawn_of_execute h hop)

theorem unbonded_funds_paid_only_to_staker_sample : ∃ p s' r,
    Reachable sampleMsg sampleEnv p ∧
    execute p.2 ⟨2074601, 300, "hub"⟩ sampleQuerier "alice" .withdrawUnbonded = .ok (s', r) ∧
    ∃ x ∈ p.2.unbondRequests, (∀ y ∈ s'.unbondRequests, y.key ≠ x.key) ∧
      x.user = "alice" ∧ Operation.withdrawUnbonded = .withdrawUnbonded ∧
      r.messages = [.bankSend "alice" (refundTotal p.2 2074601 "alice") "uluna"] := by
  obtain ⟨p, s', r, hp, h, x, hx, hgone⟩ : ∃ p s' r, Reachable sampleMsg sampleEnv p ∧
      execute p.2 ⟨2074601, 300, "hub"⟩ sampleQuerier "alice" .withdrawUnbonded = .ok (s', r) ∧
      ∃ x ∈ p.2.unbondRequests, ∀ y ∈ s'.unbondRequests, y.key ≠ x.key :=
    ⟨_, _, _, reachable_of_runCalls (unbondCalls.take 5) rfl, rfl, ⟨1, "alice", 1⟩, by decide,
      by decide⟩
  exact ⟨p, s', r, hp, h, x, hx, hgone,
    unbonded_funds_paid_only_to_staker hp h x (.inl ⟨hx, hgone⟩)⟩

end Custody

end LiquidStaking.SteakHub
