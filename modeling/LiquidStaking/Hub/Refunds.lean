import LiquidStaking.Hub.Ledger

/-! What `withdraw_unbonded` pays. A request is paid when its batch is stored, reconciled and
over, and it is paid its share of that batch as stored when the call starts: no two requests of
one user share a batch, so no pass of the loop touches the batch of another. The call fails with
the zero-withdrawable error exactly when those shares add up to nothing, which a request of a
fully slashed batch, or a dust share, does not prevent. -/

namespace LiquidStaking.Hub

def readyBatch (bs : List Batch) (t : Nat) (x : UnbondRequest) : Option Batch :=
  (Store.load Batch.id bs x.id).filter fun b => b.reconciled && b.estUnbondEndTime < t

def refundOf (bs : List Batch) (t : Nat) (x : UnbondRequest) : Nat :=
  ((readyBatch bs t x).map fun b => b.amountUnclaimed * x.shares / b.totalShares).getD 0

def refundTotal (s : State) (t : Nat) (u : Addr) : Nat :=
  ((s.unbondRequests.filter (·.user = u)).map (refundOf s.previousBatches t)).sum

section Step
variable {t : Nat} {u : Addr} {acc acc' : Withdrawal} {x : UnbondRequest} {b : Batch}
  {bs bs' : List Batch}

theorem readyBatch_eq_some : readyBatch bs t x = some b ↔
    Store.load Batch.id bs x.id = some b ∧ b.reconciled = true ∧ b.estUnbondEndTime < t := by
  simp [readyBatch, Option.filter_eq_some, and_assoc]

theorem readyBatch_congr (h : Store.load Batch.id bs' x.id = Store.load Batch.id bs x.id) :
    readyBatch bs' t x = readyBatch bs t x := by
  rw [readyBatch, h, readyBatch]

theorem refundOf_congr (h : readyBatch bs' t x = readyBatch bs t x) :
    refundOf bs' t x = refundOf bs t x := by
  rw [refundOf, h, refundOf]

theorem refundOf_eq_zero_iff : refundOf bs t x = 0 ↔
    ∀ b, readyBatch bs t x = some b → b.amountUnclaimed * x.shares / b.totalShares = 0 := by
  cases hr : readyBatch bs t x <;> simp [refundOf, hr]

theorem withdrawRequest_of_not_ready (h : readyBatch acc.state.previousBatches t x = none) :
    withdrawRequest t u acc x = .ok acc := by
  unfold withdrawRequest
  dsimp only
  cases hl : Store.load Batch.id acc.state.previousBatches x.id with
  | none => rfl
  | some b =>
    have hb : (b.reconciled && b.estUnbondEndTime < t) = false := by
      simpa [readyBatch, hl] using h
    simp only [hb]
    rfl

theorem withdrawRequest_spec (h : withdrawRequest t u acc x = .ok acc') :
    acc'.total = acc.total + refundOf acc.state.previousBatches t x ∧
    (∀ b, readyBatch acc.state.previousBatches t x = some b → 0 < b.totalShares) ∧
    (∀ k, k ≠ x.id → Store.load Batch.id acc'.state.previousBatches k =
      Store.load Batch.id acc.state.previousBatches k) ∧
    ∀ y, y ∈ acc'.state.unbondRequests ↔ y ∈ acc.state.unbondRequests ∧
      ((readyBatch acc.state.previousBatches t x).isSome → y.key ≠ (x.id, u)) := by
  cases hr : readyBatch acc.state.previousBatches t x with
  | none =>
    obtain rfl : acc = acc' := Except.ok.inj ((withdrawRequest_of_not_ready hr).symm.trans h)
    simp [refundOf, hr]
  | some b =>
    obtain ⟨hl, hrec, hend⟩ := readyBatch_eq_some.mp hr
    unfold withdrawRequest at h
    simp only [hl, hrec, hend, decide_True, Bool.and_self, ite_true, bind_eq_ok,
      multiplyRatio_eq_ok, add128_eq_ok, sub_eq_ok, pure, Except.pure, Except.ok.injEq] at h
    obtain ⟨f, ⟨hT, -, rfl⟩, _, ⟨-, rfl⟩, _, ⟨-, rfl⟩, _, ⟨-, rfl⟩, rfl⟩ := h
    have hid : b.id = x.id := Store.key_of_load hl
    refine ⟨by simp [refundOf, hr], fun b' hb' => (Option.some.inj hb').symm ▸ hT,
      fun k hk => ?_, fun y => by simp [Store.mem_remove]⟩
    dsimp only
    split
    · exact Store.load_remove_of_ne (Ne.symm hk)
    · exact Store.load_save_of_ne (hid ▸ Ne.symm hk)

theorem withdrawRequest_exists
    (hb : ∀ b, readyBatch acc.state.previousBatches t x = some b →
      0 < b.totalShares ∧ x.shares ≤ b.totalShares ∧ b.amountUnclaimed < 2 ^ 128)
    (htot : acc.total + refundOf acc.state.previousBatches t x < 2 ^ 128) :
    ∃ acc', withdrawRequest t u acc x = .ok acc' := by
  cases hr : readyBatch acc.state.previousBatches t x with
  | none => exact ⟨acc, withdrawRequest_of_not_ready hr⟩
  | some b =>
    obtain ⟨hT, hs, ha⟩ := hb b hr
    obtain ⟨hl, hrec, hend⟩ := readyBatch_eq_some.mp hr
    have hf : b.amountUnclaimed * x.shares / b.totalShares ≤ b.amountUnclaimed :=
      Nat.div_le_of_le_mul (by rw [Nat.mul_comm b.totalShares]; exact Nat.mul_le_mul_left _ hs)
    simp only [refundOf, hr, Option.map_some', Option.getD_some] at htot
    unfold withdrawRequest
    simp only [hl, hrec, hend, decide_True, Bool.and_self, ite_true,
      multiplyRatio_of_le ha hT hs, ok_bind, add128, addWithin_of_lt htot, sub, subWithin_of_le hs,
      subWithin_of_le hf]
    exact ⟨_, rfl⟩

theorem withdrawRequest_ne_genericErr (m : String) :
    withdrawRequest t u acc x ≠ .error (.genericErr m) := by
  unfold withdrawRequest
  dsimp only
  split
  · exact nofun
  · split
    · refine bind_ne_error ?_ fun _ => bind_ne_error ?_ fun _ => bind_ne_error ?_ fun _ =>
        bind_ne_error ?_ fun _ => nofun
      · unfold multiplyRatio
        split_ifs <;> exact nofun
      · unfold add128 addWithin
        split_ifs <;> exact nofun
      all_goals unfold sub subWithin; split_ifs <;> exact nofun
    · exact nofun

end Step

section Loop
variable {t : Nat} {u : Addr} {acc out : Withdrawal} {reqs : List UnbondRequest}

theorem readyBatch_withdrawRequest {acc' : Withdrawal} {x : UnbondRequest}
    {ys : List UnbondRequest} (h : withdrawRequest t u acc x = .ok acc')
    (hx : x.id ∉ ys.map (·.id)) :
    (∀ y ∈ ys, readyBatch acc'.state.previousBatches t y =
      readyBatch acc.state.previousBatches t y) ∧
    ys.map (refundOf acc'.state.previousBatches t) =
      ys.map (refundOf acc.state.previousBatches t) := by
  have hsame : ∀ y ∈ ys, readyBatch acc'.state.previousBatches t y =
      readyBatch acc.state.previousBatches t y := fun y hy =>
    readyBatch_congr <|
      (withdrawRequest_spec h).2.2.1 y.id fun he => hx (he ▸ List.mem_map_of_mem _ hy)
  exact ⟨hsame, List.map_congr_left fun y hy => refundOf_congr (hsame y hy)⟩

theorem foldlM_withdrawRequest_ne_genericErr (m : String) :
    reqs.foldlM (withdrawRequest t u) acc ≠ .error (.genericErr m) := by
  induction reqs generalizing acc with
  | nil => exact nofun
  | cons x xs ih =>
    rw [List.foldlM_cons]
    exact bind_ne_error (withdrawRequest_ne_genericErr m) fun _ => ih

theorem foldlM_withdrawRequest_spec (hids : (reqs.map (·.id)).Nodup)
    (h : reqs.foldlM (withdrawRequest t u) acc = .ok out) :
    out.total = acc.total + (reqs.map (refundOf acc.state.previousBatches t)).sum ∧
    (∀ x ∈ reqs, ∀ b, readyBatch acc.state.previousBatches t x = some b → 0 < b.totalShares) ∧
    ∀ y, y ∈ out.state.unbondRequests ↔ y ∈ acc.state.unbondRequests ∧
      ∀ x ∈ reqs, (readyBatch acc.state.previousBatches t x).isSome → y.key ≠ (x.id, u) := by
  induction reqs generalizing acc with
  | nil => cases h; simp
  | cons x xs ih =>
    rw [List.map_cons, List.nodup_cons] at hids
    simp only [List.foldlM_cons, bind_eq_ok] at h
    obtain ⟨mid, hmid, h⟩ := h
    obtain ⟨htot, hpos, -, hmem⟩ := withdrawRequest_spec hmid
    obtain ⟨hsame, hsum⟩ := readyBatch_withdrawRequest hmid hids.1
    obtain ⟨htot', hpos', hmem'⟩ := ih hids.2 h
    refine ⟨?_, ?_, fun y => ?_⟩
    · rw [htot', htot, hsum, List.map_cons, List.sum_cons]
      omega
    · rintro z (_ | ⟨_, hz⟩) b hb
      exacts [hpos b hb, hpos' z hz b ((hsame z hz).trans hb)]
    · rw [hmem', hmem, List.forall_mem_cons, and_assoc]
      exact and_congr_right fun _ => and_congr_right fun _ =>
        forall₂_congr fun z hz => by rw [hsame z hz]

theorem foldlM_withdrawRequest_exists (hids : (reqs.map (·.id)).Nodup)
    (hready : ∀ x ∈ reqs, ∀ b, readyBatch acc.state.previousBatches t x = some b →
      0 < b.totalShares ∧ x.shares ≤ b.totalShares ∧ b.amountUnclaimed < 2 ^ 128)
    (htot : acc.total + (reqs.map (refundOf acc.state.previousBatches t)).sum < 2 ^ 128) :
    ∃ out, reqs.foldlM (withdrawRequest t u) acc = .ok out := by
  induction reqs generalizing acc with
  | nil => exact ⟨acc, rfl⟩
  | cons x xs ih =>
    rw [List.map_cons, List.nodup_cons] at hids
    rw [List.map_cons, List.sum_cons] at htot
    obtain ⟨mid, hmid⟩ := withdrawRequest_exists (u := u) (hready x (List.mem_cons_self _ _))
      (by omega)
    obtain ⟨hsame, hsum⟩ := readyBatch_withdrawRequest hmid hids.1
    obtain ⟨out, hout⟩ := ih hids.2
      (fun y hy b hb => hready y (List.mem_cons_of_mem _ hy) b ((hsame y hy).symm.trans hb))
      (by rw [(withdrawRequest_spec hmid).1, hsum]; omega)
    exact ⟨out, by rw [List.foldlM_cons, hmid, ok_bind]; exact hout⟩

end Loop

theorem nodup_ids_filter_user {rs : List UnbondRequest} (h : (rs.map UnbondRequest.key).Nodup)
    (u : Addr) : ((rs.filter (·.user = u)).map (·.id)).Nodup := by
  have hk : ((rs.filter (·.user = u)).map UnbondRequest.key).Nodup :=
    h.sublist ((List.filter_sublist _).map _)
  rw [show (rs.filter (·.user = u)).map UnbondRequest.key =
      ((rs.filter (·.user = u)).map (·.id)).map (·, u) by
    rw [List.map_map]
    exact List.map_congr_left fun x hx => by
      simp [UnbondRequest.key, of_decide_eq_true (List.mem_filter.mp hx).2]] at hk
  exact hk.of_map _

theorem Ledger.readyBatch_bounds {p : PendingBatch} {bs : List Batch} {rs : List UnbondRequest}
    (hL : Ledger p bs rs) {x : UnbondRequest} (hx : x ∈ rs) {t : Nat} {b : Batch}
    (hb : readyBatch bs t x = some b) : x.shares ≤ b.totalShares ∧ b.amountUnclaimed < 2 ^ 128 := by
  obtain ⟨hl, -, -⟩ := readyBatch_eq_some.mp hb
  have hmem := Store.mem_of_load hl
  refine ⟨?_, hL.amount_lt b hmem⟩
  rw [← hL.batch_shares b hmem, Store.key_of_load hl]
  exact shares_le_sharesOf hx

section Withdraw
variable {s : State} {env : Env} {u receiver : Addr}

theorem withdrawUnbonded_eq_bind : withdrawUnbonded s env u receiver =
    (s.unbondRequests.filter (·.user = u)).foldlM (withdrawRequest env.time u) ⟨s, 0, []⟩ >>=
      fun out => if out.total = 0 then throw (.genericErr "withdrawable amount is zero") else
        pure (out.state,
          { messages := [.bankSend receiver out.total s.denom], refunds := out.refunds }) := rfl

theorem foldlM_withdrawRequest_of_ledger {p : PendingBatch}
    (hL : Ledger p s.previousBatches s.unbondRequests)
    (hpos : ∀ x ∈ s.unbondRequests, x.user = u → ∀ b,
      readyBatch s.previousBatches env.time x = some b → 0 < b.totalShares)
    (hR : refundTotal s env.time u < 2 ^ 128) :
    ∃ out, (s.unbondRequests.filter (·.user = u)).foldlM (withdrawRequest env.time u)
      ⟨s, 0, []⟩ = .ok out ∧ out.total = refundTotal s env.time u := by
  have hids := nodup_ids_filter_user hL.request_keys_nodup u
  obtain ⟨out, hf⟩ : ∃ out, (s.unbondRequests.filter (·.user = u)).foldlM
      (withdrawRequest env.time u) ⟨s, 0, []⟩ = .ok out := foldlM_withdrawRequest_exists hids
    (fun x hx b hb => by
      obtain ⟨hx, hxu⟩ := List.mem_filter.mp hx
      exact ⟨hpos x hx (of_decide_eq_true hxu) b hb, hL.readyBatch_bounds hx hb⟩)
    (by dsimp only; unfold refundTotal at hR; omega)
  refine ⟨out, hf, ?_⟩
  rw [(foldlM_withdrawRequest_spec hids hf).1, Nat.zero_add]
  rfl

theorem withdrawUnbonded_zero_iff_of_ledger {p : PendingBatch}
    (hL : Ledger p s.previousBatches s.unbondRequests) :
    withdrawUnbonded s env u receiver = .error (.genericErr "withdrawable amount is zero") ↔
      ∀ x ∈ s.unbondRequests, x.user = u → ∀ b, readyBatch s.previousBatches env.time x = some b →
        0 < b.totalShares ∧ b.amountUnclaimed * x.shares / b.totalShares = 0 := by
  have hids := nodup_ids_filter_user hL.request_keys_nodup u
  have hzero : refundTotal s env.time u = 0 ↔ ∀ x ∈ s.unbondRequests, x.user = u →
      ∀ b, readyBatch s.previousBatches env.time x = some b →
        b.amountUnclaimed * x.shares / b.totalShares = 0 := by
    rw [refundTotal, List.sum_eq_zero_iff, List.forall_mem_map]
    simp only [List.mem_filter, decide_eq_true_eq, and_imp, refundOf_eq_zero_iff]
  rw [withdrawUnbonded_eq_bind]
  constructor
  · intro h
    cases hf : (s.unbondRequests.filter (·.user = u)).foldlM (withdrawRequest env.time u)
      ⟨s, 0, []⟩ with
    | error e =>
      rw [hf, error_bind] at h
      exact (foldlM_withdrawRequest_ne_genericErr _ (by rw [hf, Except.error.inj h])).elim
    | ok out =>
      rw [hf, ok_bind] at h
      obtain ⟨htot, hpos, -⟩ := foldlM_withdrawRequest_spec hids hf
      have h0 : refundTotal s env.time u = 0 := by
        by_contra hne
        dsimp only at htot
        simp [show out.total ≠ 0 by unfold refundTotal at hne; omega, pure, Except.pure] at h
      intro x hx hxu b hb
      exact ⟨hpos x (List.mem_filter.mpr ⟨hx, decide_eq_true hxu⟩) b hb,
        hzero.mp h0 x hx hxu b hb⟩
  · intro h
    have h0 : refundTotal s env.time u = 0 := hzero.mpr fun x hx hxu b hb => (h x hx hxu b hb).2
    obtain ⟨out, hf, htot⟩ := foldlM_withdrawRequest_of_ledger hL
      (fun x hx hxu b hb => (h x hx hxu b hb).1) (by rw [h0]; norm_num)
    rw [hf, ok_bind, if_pos (htot.trans h0)]
    rfl

theorem withdrawUnbonded_spec {s' : State} {r : Response}
    (hnd : (s.unbondRequests.map UnbondRequest.key).Nodup)
    (h : withdrawUnbonded s env u receiver = .ok (s', r)) :
    r.messages = [.bankSend receiver (refundTotal s env.time u) s.denom] ∧
      ∀ y, y ∈ s'.unbondRequests ↔
        y ∈ s.unbondRequests ∧ (y.user = u → readyBatch s.previousBatches env.time y = none) := by
  rw [withdrawUnbonded_eq_bind] at h
  obtain ⟨out, hf, h⟩ := bind_eq_ok.mp h
  obtain ⟨htot, -, hmem⟩ := foldlM_withdrawRequest_spec (nodup_ids_filter_user hnd u) hf
  by_cases h0 : out.total = 0
  · simp [h0] at h
  rw [if_neg h0] at h
  obtain ⟨rfl, rfl⟩ := Prod.mk.inj (Except.ok.inj h)
  refine ⟨by rw [htot, Nat.zero_add]; rfl, fun y => ?_⟩
  rw [hmem y]
  refine and_congr_right fun hy => ⟨fun H hyu => ?_, fun H x hx hxr hk => ?_⟩
  · cases hr : readyBatch s.previousBatches env.time y with
    | none => rfl
    | some b =>
      exact absurd (by simp [UnbondRequest.key, hyu])
        (H y (List.mem_filter.mpr ⟨hy, decide_eq_true hyu⟩) (by simp [hr]))
  · obtain ⟨hx, hxu⟩ := List.mem_filter.mp hx
    obtain rfl : y = x := List.inj_on_of_nodup_map hnd hy hx
      (hk.trans (by simp [UnbondRequest.key, of_decide_eq_true hxu]))
    simp [H (of_decide_eq_true hxu)] at hxr

theorem user_of_mem_refunds {s' : State} {r : Response}
    (hnd : (s.unbondRequests.map UnbondRequest.key).Nodup)
    (h : withdrawUnbonded s env u receiver = .ok (s', r)) : ∀ f ∈ r.refunds, f.request.user = u := by
  obtain ⟨out, -, hr, hout⟩ := withdrawUnbonded_induction
    (P := fun acc => ∀ f ∈ acc.refunds, f.request.user = u) (fun acc acc' x hP _ hu h => by
      obtain rfl | ⟨-, -, -, -, -, -, -, -, -, rfl⟩ := withdrawRequest_ok h
      · exact hP
      · intro f hf
        rcases List.mem_append.mp hf with hf | hf
        · exact hP f hf
        · rw [List.mem_singleton.mp hf]; exact hu)
    hnd (fun _ hf => nomatch hf) h
  rw [← hr]
  exact hout

theorem foldlM_withdrawRequest_total {t : Nat} {reqs : List UnbondRequest} {acc out : Withdrawal}
    (h : reqs.foldlM (withdrawRequest t u) acc = .ok out)
    (hacc : acc.total = (acc.refunds.map (·.amount)).sum) :
    out.total = (out.refunds.map (·.amount)).sum := by
  induction reqs generalizing acc with
  | nil => cases h; exact hacc
  | cons x xs ih =>
    simp only [List.foldlM_cons, bind_eq_ok] at h
    obtain ⟨mid, hmid, h⟩ := h
    refine ih h ?_
    obtain rfl | ⟨_, f, -, -, -, -, -, -, -, rfl⟩ := withdrawRequest_ok hmid
    · exact hacc
    · simp [hacc]

theorem withdrawUnbonded_of_ready (receiver : Addr) {p : PendingBatch} {x : UnbondRequest}
    {b : Batch} (hL : Ledger p s.previousBatches s.unbondRequests) (hx : x ∈ s.unbondRequests)
    (hb : readyBatch s.previousBatches env.time x = some b) :
    (0 < b.amountUnclaimed * x.shares / b.totalShares →
      withdrawUnbonded s env x.user receiver ≠ .error (.genericErr "withdrawable amount is zero")) ∧
    ∀ s' r, withdrawUnbonded s env x.user receiver = .ok (s', r) → x ∉ s'.unbondRequests ∧
      ∃ amount, r.messages = [.bankSend receiver amount s.denom] ∧
        b.amountUnclaimed * x.shares / b.totalShares ≤ amount := by
  refine ⟨fun hpos hz => ?_, fun s' r h => ?_⟩
  · have := ((withdrawUnbonded_zero_iff_of_ledger hL).mp hz x hx rfl b hb).2
    omega
  · obtain ⟨hm, hmem⟩ := withdrawUnbonded_spec hL.request_keys_nodup h
    refine ⟨fun hx' => by simp [((hmem x).mp hx').2 rfl] at hb, _, hm, ?_⟩
    have hshare : refundOf s.previousBatches env.time x =
        b.amountUnclaimed * x.shares / b.totalShares := by simp [refundOf, hb]
    rw [← hshare, refundTotal]
    exact List.le_sum_of_mem (List.mem_map_of_mem _ (List.mem_filter.mpr ⟨hx, by simp⟩))

end Withdraw

variable (sha256 : List UInt8 → Digest) {s : State}

theorem bankSend_execute {env : Env} {q : Querier} {sender : Addr} {op : Operation} {s' : State}
    {r : Response} (h : execute sha256 s env q sender op = .ok (s', r)) :
    r.refunds = [] ∨
      ∃ receiver, r.messages = [.bankSend receiver (r.refunds.map (·.amount)).sum s.denom] := by
  have hw : ∀ u receiver, withdrawUnbonded s env u receiver = .ok (s', r) →
      ∃ receiver, r.messages = [.bankSend receiver (r.refunds.map (·.amount)).sum s.denom] := by
    intro u receiver hw
    obtain ⟨out, -, hr, -, hf, hm⟩ := withdrawUnbonded_ok hw
    rw [hm, ← hr, ← foldlM_withdrawRequest_total hf rfl]
    exact ⟨receiver, rfl⟩
  cases op
  case withdrawUnbonded => exact .inr (hw _ _ h)
  case withdrawUnbondedAdmin => exact .inr (hw _ _ (withdrawUnbondedAdmin_ok h).2)
  all_goals exact .inl ((execute_writes sha256 h).2.resolve_right (by simp [Operation.withdraws]))

theorem Trace.bankSend {p p' : Env × State} {rs : List Response} (ht : Trace sha256 p rs p') :
    ∀ r ∈ rs, r.refunds = [] ∨ ∃ receiver denom,
      r.messages = [.bankSend receiver (r.refunds.map (·.amount)).sum denom] := by
  induction ht with
  | nil => exact nofun
  | snoc _ hst ih =>
    intro r hr
    rcases List.mem_append.mp hr with hr | hr
    · exact ih r hr
    · obtain rfl := List.mem_singleton.mp hr
      cases hst with
      | call _ _ _ _ _ _ _ h => exact (bankSend_execute sha256 h).imp id fun ⟨a, h⟩ => ⟨a, _, h⟩

/-- In every reachable state, a user's `withdraw_unbonded` fails with the zero-withdrawable
error exactly when each of their requests with a ready batch is owed a zero share of a batch
that has shares, as when they have no such request at all; it goes through when those batches
have shares and the shares add up to a positive amount that fits a `Uint128`; and when it goes
through it sends that amount and takes out exactly the user's requests with a ready batch. -/
theorem withdraw_zero_error_iff_nothing_due {allowed : Operation → Prop} {msg : InstantiateMsg}
    {env₀ env' : Env} (hp : Reachable sha256 allowed msg env₀ (env', s)) (env : Env)
    (u receiver : Addr) :
    (withdrawUnbonded s env u receiver = .error (.genericErr "withdrawable amount is zero") ↔
      ∀ x ∈ s.unbondRequests, x.user = u → ∀ b, readyBatch s.previousBatches env.time x = some b →
        0 < b.totalShares ∧ b.amountUnclaimed * x.shares / b.totalShares = 0) ∧
    ((∀ x ∈ s.unbondRequests, x.user = u → ∀ b, readyBatch s.previousBatches env.time x = some b →
        0 < b.totalShares) →
      0 < refundTotal s env.time u → refundTotal s env.time u < 2 ^ 128 →
      ∃ s' r, withdrawUnbonded s env u receiver = .ok (s', r)) ∧
    ∀ s' r, withdrawUnbonded s env u receiver = .ok (s', r) →
      r.messages = [.bankSend receiver (refundTotal s env.time u) s.denom] ∧
      ∀ y, y ∈ s'.unbondRequests ↔
        y ∈ s.unbondRequests ∧ (y.user = u → readyBatch s.previousBatches env.time y = none) := by
  have hL := Ledger.reachable sha256 hp
  refine ⟨withdrawUnbonded_zero_iff_of_ledger hL, fun hpos hR hR' => ?_,
    fun s' r h => withdrawUnbonded_spec hL.request_keys_nodup h⟩
  obtain ⟨out, hf, htot⟩ := foldlM_withdrawRequest_of_ledger hL hpos hR'
  rw [withdrawUnbonded_eq_bind, hf, ok_bind, if_neg (show out.total ≠ 0 from htot ▸ hR.ne')]
  exact ⟨_, _, rfl⟩

theorem withdraw_zero_error_iff_nothing_due_sample : ∃ env' s,
    Reachable zeroDigest (fun _ => True) sampleMsg sampleEnv (env', s) ∧
    refundTotal s 2074602 "alice" = 10 ∧
    (withdrawUnbonded s ⟨2074602, 400, "hub"⟩ "alice" "alice" =
        .error (.genericErr "withdrawable amount is zero") ↔
      ∀ x ∈ s.unbondRequests, x.user = "alice" → ∀ b, readyBatch s.previousBatches 2074602 x = some b →
        0 < b.totalShares ∧ b.amountUnclaimed * x.shares / b.totalShares = 0) ∧
    ((∀ x ∈ s.unbondRequests, x.user = "alice" → ∀ b,
        readyBatch s.previousBatches 2074602 x = some b → 0 < b.totalShares) →
      0 < refundTotal s 2074602 "alice" → refundTotal s 2074602 "alice" < 2 ^ 128 →
      ∃ s' r, withdrawUnbonded s ⟨2074602, 400, "hub"⟩ "alice" "alice" = .ok (s', r)) ∧
    ∀ s' r, withdrawUnbonded s ⟨2074602, 400, "hub"⟩ "alice" "alice" = .ok (s', r) →
      r.messages = [.bankSend "alice" (refundTotal s 2074602 "alice") s.denom] ∧
      ∀ y, y ∈ s'.unbondRequests ↔
        y ∈ s.unbondRequests ∧ (y.user = "alice" → readyBatch s.previousBatches 2074602 y = none) := by
  have hp : Reachable zeroDigest (fun _ => True) sampleMsg sampleEnv _ :=
    reachable_of_runCalls zeroDigest sampleCalls rfl rfl
  exact ⟨_, _, hp, rfl, withdraw_zero_error_iff_nothing_due zeroDigest hp _ _ _⟩

def slashedCalls : List Call :=
  sampleCalls.take 3 ++
    [⟨⟨2074601, 300, "hub"⟩, { sampleQuerier with balance := fun _ => 0 }, "hub", .reconcile⟩]

/-- Reconciliation slashes Alice's batch to nothing: her request's batch is ready, and her
withdrawal still fails with the zero-withdrawable error. -/
theorem slashed_request_withdraws_nothing : ∃ p,
    Reachable zeroDigest (fun _ => True) sampleMsg sampleEnv p ∧
    (∃ x ∈ p.2.unbondRequests, x.user = "alice" ∧
      (readyBatch p.2.previousBatches 2074602 x).isSome) ∧
    withdrawUnbonded p.2 ⟨2074602, 400, "hub"⟩ "alice" "alice" =
      .error (.genericErr "withdrawable amount is zero") :=
  ⟨_, reachable_of_runCalls zeroDigest slashedCalls rfl rfl, by decide, rfl⟩

section Custody
variable {s' : State} {env : Env} {q : Querier} {sender : Addr} {op : Operation} {r : Response}
  {x : UnbondRequest}

theorem user_of_withdrawn {u receiver : Addr}
    (hnd : (s.unbondRequests.map UnbondRequest.key).Nodup)
    (h : withdrawUnbonded s env u receiver = .ok (s', r))
    (hx : (x ∈ s.unbondRequests ∧ ∀ y ∈ s'.unbondRequests, y.key ≠ x.key) ∨
      ∃ f, ⟨x, f⟩ ∈ r.refunds) : x.user = u := by
  rcases hx with ⟨hx, hgone⟩ | ⟨f, hf⟩
  · by_contra hne
    exact hgone x (((withdrawUnbonded_spec hnd h).2 x).mpr ⟨hx, fun hu => absurd hu hne⟩) rfl
  · exact user_of_mem_refunds hnd h _ hf

theorem not_withdrawn_of_execute (h : execute sha256 s env q sender op = .ok (s', r))
    (hop : op.withdraws = false) :
    ¬((x ∈ s.unbondRequests ∧ ∀ y ∈ s'.unbondRequests, y.key ≠ x.key) ∨
      ∃ f, ⟨x, f⟩ ∈ r.refunds) := by
  rintro (⟨hx, hgone⟩ | ⟨f, hf⟩)
  · have hw := (execute_writes sha256 h).1
    cases op <;> simp only [execute] at h
    case queueUnbond receiver _ =>
      obtain ⟨rfl, -⟩ := queueUnbond_ok h
      by_cases hk : x.key = (requestOrDefault s.unbondRequests s.pendingBatch.id receiver).key
      · exact hgone _ (Store.mem_save.mpr (.inl rfl)) hk.symm
      · exact hgone x (Store.mem_save.mpr (.inr ⟨hx, hk⟩)) rfl
    case withdrawUnbonded | withdrawUnbondedAdmin => cases hop
    all_goals simp only [Operation.Writes] at hw; rw [hw] at hgone; exact hgone x hx rfl
  · rw [(execute_writes sha256 h).2.resolve_right (by rw [hop]; exact nofun)] at hf
    nomatch hf

/-- Only a user's own withdrawal, or the owner's withdrawal on the user's behalf, moves the
user's unbonded funds. From a reachable state, a call that takes out a stored request, or pays
a refund for one, is `withdraw_unbonded` sent by the request's user, paying the receiver that
user names, or `withdraw_unbonded_admin` sent by the owner for the request's user, paying that
user. -/
theorem unbonded_funds_move_only_for_requester {allowed : Operation → Prop}
    {msg : InstantiateMsg} {env₀ env' : Env} (hp : Reachable sha256 allowed msg env₀ (env', s))
    (h : execute sha256 s env q sender op = .ok (s', r)) (x : UnbondRequest)
    (hx : (x ∈ s.unbondRequests ∧ ∀ y ∈ s'.unbondRequests, y.key ≠ x.key) ∨
      ∃ f, ⟨x, f⟩ ∈ r.refunds) :
    (x.user = sender ∧ ∃ receiver, op = .withdrawUnbonded receiver ∧
      r.messages = [.bankSend receiver (refundTotal s env.time sender) s.denom]) ∨
    (sender = s.owner ∧ op = .withdrawUnbondedAdmin x.user ∧
      r.messages = [.bankSend x.user (refundTotal s env.time x.user) s.denom]) := by
  have hnd := (Ledger.reachable sha256 hp).request_keys_nodup
  cases op
  case withdrawUnbonded receiver =>
    exact .inl ⟨user_of_withdrawn hnd h hx, receiver, rfl, (withdrawUnbonded_spec hnd h).1⟩
  case withdrawUnbondedAdmin receiver =>
    obtain ⟨ho, hw⟩ := withdrawUnbondedAdmin_ok h
    obtain rfl := user_of_withdrawn hnd hw hx
    exact .inr ⟨ho, rfl, (withdrawUnbonded_spec hnd hw).1⟩
  all_goals exact absurd hx (not_withdrawn_of_execute sha256 h rfl)

theorem unbonded_funds_move_only_for_requester_sample : ∃ env' s s' r,
    Reachable zeroDigest (fun _ => True) sampleMsg sampleEnv (env', s) ∧
    execute zeroDigest s ⟨2074602, 400, "hub"⟩ sampleQuerier "owner"
      (.withdrawUnbondedAdmin "alice") = .ok (s', r) ∧
    ∃ x ∈ s.unbondRequests, (∀ y ∈ s'.unbondRequests, y.key ≠ x.key) ∧
      ((x.user = "owner" ∧ ∃ receiver,
          Operation.withdrawUnbondedAdmin "alice" = .withdrawUnbonded receiver ∧
          r.messages = [.bankSend receiver (refundTotal s 2074602 "owner") s.denom]) ∨
        ("owner" = s.owner ∧ Operation.withdrawUnbondedAdmin "alice" = .withdrawUnbondedAdmin x.user ∧
          r.messages = [.bankSend x.user (refundTotal s 2074602 x.user) s.denom])) := by
  obtain ⟨env', s, s', r, hp, h, x, hx, hgone⟩ : ∃ env' s s' r,
      Reachable zeroDigest (fun _ => True) sampleMsg sampleEnv (env', s) ∧
      execute zeroDigest s ⟨2074602, 400, "hub"⟩ sampleQuerier "owner"
        (.withdrawUnbondedAdmin "alice") = .ok (s', r) ∧
      ∃ x ∈ s.unbondRequests, ∀ y ∈ s'.unbondRequests, y.key ≠ x.key :=
    ⟨_, _, _, _, reachable_of_runCalls zeroDigest sampleCalls rfl rfl, rfl,
      ⟨1, "alice", 10⟩, by decide, by decide⟩
  exact ⟨env', s, s', r, hp, h, x, hx, hgone,
    unbonded_funds_move_only_for_requester zeroDigest hp h x (.inl ⟨hx, hgone⟩)⟩

end Custody

end LiquidStaking.Hub
