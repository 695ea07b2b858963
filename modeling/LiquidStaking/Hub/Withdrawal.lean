import LiquidStaking.Hub.Refunds

/-! Paying out a reconciled batch. Take a reachable state in which batch `k` is reconciled with
`A` unclaimed over `T > 0` shares, and any calls after it. The pro-rata arithmetic of
`withdraw_unbonded` never fails on a request of the batch, and every refund from it pays at least
`A * shares / T`; once the batch has ended, each request of it is taken out by its user's
withdrawal, which sends at least that much; and once its last request is withdrawn the refunds
add up to `A` and the batch is gone. The argument: what is left per share never falls below
`A / T`, and the last withdrawal, holding every remaining share, takes the remainder. -/

namespace LiquidStaking.Hub

def paidOut (k : Nat) (fs : List Refund) : Nat :=
  ((fs.filter (·.request.id = k)).map (·.amount)).sum

theorem paidOut_snoc (k : Nat) (fs : List Refund) (x : UnbondRequest) (f : Nat) :
    paidOut k (fs ++ [⟨x, f⟩]) = paidOut k fs + if x.id = k then f else 0 := by
  by_cases h : x.id = k <;> simp [paidOut, List.filter_append, h]

theorem div_le_refund {A T a t s : Nat} (hT : 0 < T) (ht : 0 < t) (hinv : A * t ≤ a * T) :
    A * s / T ≤ a * s / t := by
  rw [Nat.le_div_iff_mul_le ht]
  calc A * s / T * t ≤ A * s * t / T := by
        rw [Nat.mul_comm, Nat.mul_comm (A * s)]; exact Nat.mul_div_le_mul_div_assoc _ _ _
    _ ≤ a * s * T / T := Nat.div_le_div_right (by
        rw [Nat.mul_right_comm, Nat.mul_right_comm a]; exact Nat.mul_le_mul_right _ hinv)
    _ = a * s := Nat.mul_div_cancel _ hT

theorem ratio_shrink {A T a t s : Nat} (ht : 0 < t) (hinv : A * t ≤ a * T) :
    A * (t - s) ≤ (a - a * s / t) * T := by
  have hpay : a * (t - s) ≤ (a - a * s / t) * t := by
    have := Nat.div_mul_le_self (a * s) t
    rw [Nat.sub_mul, Nat.mul_sub]
    omega
  refine Nat.le_of_mul_le_mul_right ?_ ht
  calc A * (t - s) * t = A * t * (t - s) := Nat.mul_right_comm _ _ _
    _ ≤ a * T * (t - s) := Nat.mul_le_mul_right _ hinv
    _ = a * (t - s) * T := Nat.mul_right_comm _ _ _
    _ ≤ (a - a * s / t) * t * T := Nat.mul_le_mul_right _ hpay
    _ = (a - a * s / t) * T * t := Nat.mul_right_comm _ _ _

structure Payout (reqs₀ : List UnbondRequest) (k A T : Nat) (s : State) (fs : List Refund) :
    Prop where
  batch_lt : k < s.pendingBatch.id
  requests_old : ∀ x ∈ s.unbondRequests, x.id = k → x ∈ reqs₀
  refunds_fair : ∀ f ∈ fs, f.request.id = k →
    f.request ∈ reqs₀ ∧ A * f.request.shares / T ≤ f.amount
  batch : (∃ b ∈ s.previousBatches, b.id = k ∧ b.reconciled = true ∧ 0 < b.totalShares ∧
      A * b.totalShares ≤ b.amountUnclaimed * T ∧ paidOut k fs + b.amountUnclaimed = A) ∨
    (∀ b ∈ s.previousBatches, b.id ≠ k) ∧ paidOut k fs = A

section
variable {reqs₀ : List UnbondRequest} {k A T : Nat} {s s' : State} {fs : List Refund}
  {env : Env} {q : Querier} {r : Response}

theorem Payout.init {b : Batch} (hL : Ledger s.pendingBatch s.previousBatches s.unbondRequests)
    (hb : b ∈ s.previousBatches) (hrec : b.reconciled = true) (hT : 0 < b.totalShares) :
    Payout s.unbondRequests b.id b.amountUnclaimed b.totalShares s [] :=
  ⟨hL.batch_id_lt b hb, fun _ hx _ => hx, nofun,
    .inl ⟨b, hb, rfl, hrec, hT, le_rfl, Nat.zero_add _⟩⟩

theorem Payout.withdrawRequest {t : Nat} {u : Addr} {acc acc' : Withdrawal} {x : UnbondRequest}
    (hT : 0 < T)
    (hL : Ledger acc.state.pendingBatch acc.state.previousBatches acc.state.unbondRequests)
    (hP : Payout reqs₀ k A T acc.state (fs ++ acc.refunds))
    (hx : x ∈ acc.state.unbondRequests) (hu : x.user = u)
    (h : withdrawRequest t u acc x = .ok acc') :
    Payout reqs₀ k A T acc'.state (fs ++ acc'.refunds) := by
  obtain rfl | ⟨b, f, hb, hrec, -, hmr, -, hs, hf, rfl⟩ := withdrawRequest_ok h
  · exact hP
  obtain ⟨hbm, hbx⟩ := (Store.load_eq_some hL.batch_ids_nodup).mp hb
  obtain ⟨-, -, rfl⟩ := multiplyRatio_eq_ok.mp hmr
  have hkey : ((x.id, u) : Nat × Addr) = x.key := by rw [UnbondRequest.key, hu]
  dsimp only
  rw [hkey, ← List.append_assoc]
  have hold : ∀ y ∈ Store.remove UnbondRequest.key acc.state.unbondRequests x.key, y.id = k →
      y ∈ reqs₀ := fun y hy => hP.requests_old y (Store.mem_remove.mp hy).1
  by_cases hxk : x.id = k
  · -- a request of batch `k`, paid from it
    have hbk : b.id = k := hbx.trans hxk
    obtain ⟨b', hb', hb'k, -, hpos, hratio, hsum⟩ :=
      hP.batch.resolve_right fun ⟨hno, _⟩ => hno b hbm hbk
    obtain rfl : b' = b :=
      List.inj_on_of_nodup_map hL.batch_ids_nodup hb' hbm (hb'k.trans hbk.symm)
    refine ⟨hP.batch_lt, hold, fun g hg hgk => ?_, ?_⟩
    · rcases List.mem_append.mp hg with hg | hg
      · exact hP.refunds_fair g hg hgk
      · rw [List.mem_singleton.mp hg]
        exact ⟨hP.requests_old x hx hxk, div_le_refund hT hpos hratio⟩
    · rw [paidOut_snoc, if_pos hxk]
      by_cases hz : b'.totalShares - x.shares = 0
      · -- the last shares: the remainder is paid and the batch goes
        have hall : x.shares = b'.totalShares := by omega
        rw [if_pos hz, hall, Nat.mul_div_cancel _ hpos]
        exact .inr ⟨fun c hc => hxk ▸ (Store.mem_remove.mp hc).2, by omega⟩
      · rw [if_neg hz]
        exact .inl ⟨_, Store.mem_save.mpr (.inl rfl), hbk, hrec, Nat.pos_of_ne_zero hz,
          ratio_shrink hpos hratio, by dsimp only; omega⟩
  · -- a request of another batch: batch `k` is untouched and the refund is not from it
    refine ⟨hP.batch_lt, hold, fun g hg hgk => ?_, ?_⟩
    · rcases List.mem_append.mp hg with hg | hg
      · exact hP.refunds_fair g hg hgk
      · rw [List.mem_singleton.mp hg] at hgk
        exact absurd hgk hxk
    · rw [paidOut_snoc, if_neg hxk, Nat.add_zero]
      rcases hP.batch with ⟨b', hb', hb'k, hrest⟩ | ⟨hno, hsum⟩
      · exact .inl ⟨b', mem_removeOrSave_of_ne hb' (fun h => hxk (h.symm.trans hb'k)) hbx,
          hb'k, hrest⟩
      · refine .inr ⟨fun c hc => ?_, hsum⟩
        rcases mem_removeOrSave hc hbx with ⟨-, rfl⟩ | ⟨hc, -⟩
        · exact hbx ▸ hxk
        · exact hno c hc

theorem Payout.queueUnbond {receiver : Addr} {n : Nat} (hP : Payout reqs₀ k A T s fs)
    (h : queueUnbond s env receiver n = .ok (s', r)) : Payout reqs₀ k A T s' fs := by
  obtain ⟨rfl, -⟩ := queueUnbond_ok h
  have hid := congrArg Prod.fst (key_requestOrDefault s.unbondRequests s.pendingBatch.id receiver)
  refine ⟨hP.batch_lt, fun y hy hyk => ?_, hP.refunds_fair, hP.batch⟩
  rcases Store.mem_save.mp hy with rfl | ⟨hy, -⟩
  · exact absurd (hid.symm.trans hyk) hP.batch_lt.ne'
  · exact hP.requests_old y hy hyk

theorem Payout.submitBatch (hP : Payout reqs₀ k A T s fs) (h : submitBatch s env q = .ok (s', r)) :
    Payout reqs₀ k A T s' fs := by
  obtain ⟨-, a, -, rfl, -⟩ := submitBatch_ok h
  have hne : k ≠ s.pendingBatch.id := hP.batch_lt.ne
  refine ⟨Nat.lt_succ_of_lt hP.batch_lt, hP.requests_old, hP.refunds_fair, ?_⟩
  rcases hP.batch with ⟨b, hb, hbk, hrest⟩ | ⟨hno, hsum⟩
  · exact .inl ⟨b, Store.mem_save.mpr (.inr ⟨hb, hbk ▸ hne⟩), hbk, hrest⟩
  · refine .inr ⟨fun c hc => ?_, hsum⟩
    rcases Store.mem_save.mp hc with rfl | ⟨hc, -⟩
    · exact hne.symm
    · exact hno c hc

theorem Payout.reconcile (hL : Ledger s.pendingBatch s.previousBatches s.unbondRequests)
    (hP : Payout reqs₀ k A T s fs) (h : reconcile s env q = .ok (s', r)) :
    Payout reqs₀ k A T s' fs := by
  obtain ⟨rfl, -⟩ := reconcile_ok h
  refine ⟨hP.batch_lt, hP.requests_old, hP.refunds_fair, ?_⟩
  dsimp only
  rw [foldl_save_settledBatches hL.batch_ids_nodup]
  rcases hP.batch with ⟨b, hb, hbk, hrec, hrest⟩ | ⟨hno, hsum⟩
  · -- a reconciled batch is not settled again
    refine .inl ⟨b, ?_, hbk, hrec, hrest⟩
    rw [← settle_of_not_mem hL.batch_ids_nodup hb (by simp [hrec])]
    exact List.mem_map_of_mem _ hb
  · refine .inr ⟨?_, hsum⟩
    simp only [List.mem_map]
    rintro _ ⟨c, hc, rfl⟩
    rcases settle_cases hL.batch_ids_nodup hc with h | ⟨-, a, -, h⟩ <;> rw [h] <;> exact hno c hc

theorem Payout.withdrawUnbonded {user receiver : Addr} (hT : 0 < T)
    (hL : Ledger s.pendingBatch s.previousBatches s.unbondRequests)
    (hP : Payout reqs₀ k A T s fs) (h : withdrawUnbonded s env user receiver = .ok (s', r)) :
    Payout reqs₀ k A T s' (fs ++ r.refunds) := by
  obtain ⟨out, rfl, hr, hout⟩ := withdrawUnbonded_induction
    (P := fun acc => Ledger acc.state.pendingBatch acc.state.previousBatches
      acc.state.unbondRequests ∧ Payout reqs₀ k A T acc.state (fs ++ acc.refunds))
    (fun _ _ _ hLP hx hu h => ⟨hLP.1.withdrawRequest hx hu h, hLP.2.withdrawRequest hT hLP.1 hx hu h⟩)
    hL.request_keys_nodup ⟨hL, by simpa using hP⟩ h
  rw [← hr]
  exact hout.2

variable (sha256 : List UInt8 → Digest)

theorem Payout.execute {sender : Addr} {op : Operation} (hT : 0 < T)
    (hL : Ledger s.pendingBatch s.previousBatches s.unbondRequests)
    (hP : Payout reqs₀ k A T s fs) (h : execute sha256 s env q sender op = .ok (s', r)) :
    Payout reqs₀ k A T s' (fs ++ r.refunds) := by
  obtain ⟨hw, hr⟩ := execute_writes sha256 h
  cases op
  case withdrawUnbonded => exact hP.withdrawUnbonded hT hL h
  case withdrawUnbondedAdmin => exact hP.withdrawUnbonded hT hL (withdrawUnbondedAdmin_ok h).2
  all_goals rw [hr.resolve_right (by simp [Operation.withdraws]), List.append_nil]
  case queueUnbond => exact hP.queueUnbond h
  case submitBatch => exact hP.submitBatch h
  case reconcile => exact hP.reconcile hL h
  all_goals simp only [Operation.Writes] at hw; rw [hw]; exact ⟨hP.1, hP.2, hP.3, hP.4⟩

theorem Payout.trace {msg : InstantiateMsg} {env₀ : Env} {p₀ p : Env × State}
    {rs : List Response} (hT : 0 < T) (hp₀ : Reachable sha256 (fun _ => True) msg env₀ p₀)
    (hP : Payout reqs₀ k A T p₀.2 []) (ht : Trace sha256 p₀ rs p) :
    Payout reqs₀ k A T p.2 (rs.map (·.refunds)).flatten := by
  induction ht with
  | nil => exact hP
  | snoc ht' hst ih =>
    cases hst with
    | call _ q sender _ _ _ _ h =>
      rw [List.map_append, List.flatten_append, List.map_singleton, List.flatten_singleton]
      exact ih.execute sha256 hT (Ledger.reachable sha256 (hp₀.trace sha256 ht')) h

/-- Take batch `b₀` reconciled, with `total_shares > 0`, in a reachable state, and any calls
after it. In every later state, while the batch is stored, the pro-rata arithmetic of
`withdraw_unbonded` on a request of it succeeds, and once the batch has ended the request's
user's withdrawal takes the request out and sends at least `amount_unclaimed * shares /
total_shares` of `b₀`, never stopping at the zero check when that share is positive. Every call
that pays refunds sends their sum in one bank transfer; every refund paid from the batch is for a
request it had, at least that share; and once no request of it is left, the batch is gone and
its refunds add up to its `amount_unclaimed`. -/
theorem reconciled_batch_pays_out {msg : InstantiateMsg} {env₀ : Env} {p₀ p : Env × State}
    {rs : List Response} {b₀ : Batch} (hp₀ : Reachable sha256 (fun _ => True) msg env₀ p₀)
    (hb₀ : b₀ ∈ p₀.2.previousBatches) (hrec : b₀.reconciled = true) (hT : 0 < b₀.totalShares)
    (ht : Trace sha256 p₀ rs p) :
    (∀ x ∈ p.2.unbondRequests, x.id = b₀.id → ∀ b ∈ p.2.previousBatches, b.id = b₀.id →
      (multiplyRatio b.amountUnclaimed x.shares b.totalShares =
        .ok (b.amountUnclaimed * x.shares / b.totalShares) ∧
      sub b.totalShares x.shares = .ok (b.totalShares - x.shares) ∧
      sub b.amountUnclaimed (b.amountUnclaimed * x.shares / b.totalShares) =
        .ok (b.amountUnclaimed - b.amountUnclaimed * x.shares / b.totalShares)) ∧
      ∀ env receiver, b.estUnbondEndTime < env.time →
        (0 < b₀.amountUnclaimed * x.shares / b₀.totalShares →
          withdrawUnbonded p.2 env x.user receiver ≠
            .error (.genericErr "withdrawable amount is zero")) ∧
        ∀ s' r, withdrawUnbonded p.2 env x.user receiver = .ok (s', r) →
          x ∉ s'.unbondRequests ∧ ∃ amount, r.messages = [.bankSend receiver amount p.2.denom] ∧
            b₀.amountUnclaimed * x.shares / b₀.totalShares ≤ amount) ∧
    (∀ r ∈ rs, r.refunds = [] ∨ ∃ receiver denom,
      r.messages = [.bankSend receiver (r.refunds.map (·.amount)).sum denom]) ∧
    (∀ f ∈ (rs.map (·.refunds)).flatten, f.request.id = b₀.id →
      f.request ∈ p₀.2.unbondRequests ∧
      b₀.amountUnclaimed * f.request.shares / b₀.totalShares ≤ f.amount) ∧
    ((∀ x ∈ p.2.unbondRequests, x.id ≠ b₀.id) →
      (∀ b ∈ p.2.previousBatches, b.id ≠ b₀.id) ∧
      paidOut b₀.id (rs.map (·.refunds)).flatten = b₀.amountUnclaimed) := by
  have hL := Ledger.reachable sha256 (hp₀.trace sha256 ht)
  have hP := (Payout.init (Ledger.reachable sha256 hp₀) hb₀ hrec hT).trace sha256 hT hp₀ ht
  refine ⟨fun x hx hxk b hb hbk => ?_, ht.bankSend sha256, hP.refunds_fair, fun hnone => ?_⟩
  · obtain ⟨b', hb', hb'k, hrec', hpos, hratio, -⟩ :=
      hP.batch.resolve_right fun ⟨hno, _⟩ => hno b hb hbk
    obtain rfl : b' = b := List.inj_on_of_nodup_map hL.batch_ids_nodup hb' hb (hb'k.trans hbk.symm)
    have hs : x.shares ≤ b'.totalShares := by
      rw [← hL.batch_shares b' hb', hb'k, ← hxk]
      exact shares_le_sharesOf hx
    have hf : b'.amountUnclaimed * x.shares / b'.totalShares ≤ b'.amountUnclaimed :=
      Nat.div_le_of_le_mul (by rw [Nat.mul_comm]; exact Nat.mul_le_mul_right _ hs)
    have hfair := div_le_refund (s := x.shares) hT hpos hratio
    refine ⟨⟨multiplyRatio_eq_ok.mpr ⟨hpos, lt_of_le_of_lt hf (hL.amount_lt b' hb'), rfl⟩,
      sub_eq_ok.mpr ⟨hs, rfl⟩, sub_eq_ok.mpr ⟨hf, rfl⟩⟩, fun env receiver hend => ?_⟩
    have hload := (Store.load_eq_some hL.batch_ids_nodup).mpr ⟨hb', hb'k.trans hxk.symm⟩
    obtain ⟨hzero, hpaid⟩ := withdrawUnbonded_of_ready receiver hL hx
      (readyBatch_eq_some.mpr ⟨hload, hrec', hend⟩)
    exact ⟨fun hpos' => hzero (hpos'.trans_le hfair), fun s' r h =>
      (hpaid s' r h).imp_right fun ⟨amount, hm, hle⟩ => ⟨amount, hm, hfair.trans hle⟩⟩
  · refine hP.batch.resolve_left ?_
    rintro ⟨b, hb, hbk, -, hpos, -⟩
    -- a stored batch holds shares, so some request of it is left
    have hzero : sharesOf p.2.unbondRequests b.id = 0 :=
      sharesOf_eq_zero fun x hx => hbk ▸ hnone x hx
    rw [hL.batch_shares b hb] at hzero
    omega

theorem reconciled_batch_pays_out_sample : ∃ (p₀ p : Env × State) (rs : List Response) (b₀ : Batch)
    (x : UnbondRequest),
    Reachable zeroDigest (fun _ => True) sampleMsg sampleEnv p₀ ∧ b₀ ∈ p₀.2.previousBatches ∧
    b₀.reconciled = true ∧ 0 < b₀.totalShares ∧ Trace zeroDigest p₀ rs p ∧
    x ∈ p₀.2.unbondRequests ∧ x.id = b₀.id ∧ 0 < b₀.amountUnclaimed * x.shares / b₀.totalShares ∧
    withdrawUnbonded p₀.2 ⟨2074602, 400, "hub"⟩ x.user "alice" ≠
      .error (.genericErr "withdrawable amount is zero") ∧
    paidOut b₀.id (rs.map (·.refunds)).flatten = b₀.amountUnclaimed := by
  have hp₀ : Reachable zeroDigest (fun _ => True) sampleMsg sampleEnv _ :=
    reachable_of_runCalls zeroDigest sampleCalls rfl rfl
  have ht := (hp₀.runCalls zeroDigest
    [⟨⟨2074602, 400, "hub"⟩, sampleQuerier, "alice", .withdrawUnbonded "alice"⟩] rfl).2
  have hlive := ((reconciled_batch_pays_out zeroDigest hp₀ (List.Mem.head _) rfl (by decide)
    (.nil _)).1 _ (List.Mem.head _) rfl _ (List.Mem.head _) rfl).2 ⟨2074602, 400, "hub"⟩ "alice"
    (by decide)
  exact ⟨_, _, _, _, _, hp₀, List.Mem.head _, rfl, by decide, ht, List.Mem.head _, rfl,
    by decide, hlive.1 (by decide),
    ((reconciled_batch_pays_out zeroDigest hp₀ (List.Mem.head _) rfl (by decide) ht).2.2.2
      (by decide)).2⟩

end

end LiquidStaking.Hub
