import LiquidStaking.Hub.Withdrawal
import LiquidStaking.SteakHub.Ledger

/-! Paying out a batch of the steak hub. A stored batch is never written again: it stays as
`submit_batch` stored it until a withdrawal takes it out, and no batch of its id is stored after
that. So every refund from it is priced against the batch as submitted, the shares it has paid
and those still open stay within its shares, and what it pays never exceeds the `uluna` it
unbonded. -/

namespace LiquidStaking.SteakHub

open Hub (UnbondRequest Refund Response sharesOf paidOut)

def paidShares (k : Nat) (fs : List Refund) : Nat :=
  ((fs.filter (·.request.id = k)).map (·.request.shares)).sum

theorem paidShares_snoc (k : Nat) (fs : List Refund) (x : UnbondRequest) (f : Nat) :
    paidShares k (fs ++ [⟨x, f⟩]) = paidShares k fs + if x.id = k then x.shares else 0 := by
  by_cases h : x.id = k <;> simp [paidShares, List.filter_append, h]

theorem paidOut_le {k U T : Nat} {fs : List Refund}
    (hex : ∀ f ∈ fs, f.request.id = k → f.amount = U * f.request.shares / T)
    (hle : paidShares k fs ≤ T) : paidOut k fs ≤ U := by
  have hmap : (fs.filter (·.request.id = k)).map (·.amount) =
      ((fs.filter (·.request.id = k)).map (·.request.shares)).map fun a => U * a / T := by
    rw [List.map_map]
    refine List.map_congr_left fun f hf => ?_
    obtain ⟨hf, hfk⟩ := List.mem_filter.mp hf
    exact hex f hf (of_decide_eq_true hfk)
  calc paidOut k fs
      = (((fs.filter (·.request.id = k)).map (·.request.shares)).map fun a => U * a / T).sum := by
        rw [paidOut, hmap]
    _ ≤ U * paidShares k fs / T := Hub.sum_div_le U T _
    _ ≤ U := Nat.div_le_of_le_mul (by rw [Nat.mul_comm T]; exact Nat.mul_le_mul_left U hle)

structure Frozen (b₀ : Batch) (s : State) (fs : List Refund) : Prop where
  batch_lt : b₀.id < s.pendingBatch.id
  stored_eq : ∀ b ∈ s.previousBatches, b.id = b₀.id → b = b₀
  refunds_exact : ∀ f ∈ fs, f.request.id = b₀.id →
    f.amount = b₀.ulunaUnclaimed * f.request.shares / b₀.totalShares
  shares_le : paidShares b₀.id fs + sharesOf s.unbondRequests b₀.id ≤ b₀.totalShares

section Step
variable {b₀ : Batch} {s s' : State} {fs : List Refund} {env : Env} {q : Querier} {r : Response}

theorem Frozen.init (hL : Ledger s.pendingBatch s.previousBatches s.unbondRequests)
    (hb : b₀ ∈ s.previousBatches) : Frozen b₀ s [] :=
  ⟨hL.batch_id_lt b₀ hb, fun _ hb' hid => List.inj_on_of_nodup_map hL.batch_ids_nodup hb' hb hid,
    nofun, by simpa [paidShares] using hL.batch_covers b₀ hb⟩

theorem Frozen.queueUnbond {stakerAddr : Addr} {n : Nat}
    (hL : Ledger s.pendingBatch s.previousBatches s.unbondRequests) (hF : Frozen b₀ s fs)
    (h : queueUnbond s env stakerAddr n = .ok (s', r)) : Frozen b₀ s' fs := by
  obtain ⟨-, rfl, -⟩ := queueUnbond_ok h
  refine ⟨hF.batch_lt, hF.stored_eq, hF.refunds_exact, ?_⟩
  dsimp only
  rw [Hub.sharesOf_queue hL.request_keys_nodup, if_neg hF.batch_lt.ne', Nat.add_zero]
  exact hF.shares_le

theorem Frozen.submitBatch (hF : Frozen b₀ s fs) (h : submitBatch s env q = .ok (s', r)) :
    Frozen b₀ s' fs := by
  obtain ⟨-, a, -, -, -, rfl, -⟩ := submitBatch_ok h
  refine ⟨Nat.lt_succ_of_lt hF.batch_lt, fun b hb hid => ?_, hF.refunds_exact, hF.shares_le⟩
  rcases Store.mem_save.mp hb with rfl | ⟨hb, -⟩
  · exact absurd hid hF.batch_lt.ne'
  · exact hF.stored_eq b hb hid

theorem Frozen.withdrawRequest {t : Nat} {u : Addr} {acc acc' : Withdrawal} {x : UnbondRequest}
    (hL : Ledger acc.state.pendingBatch acc.state.previousBatches acc.state.unbondRequests)
    (hF : Frozen b₀ acc.state (fs ++ acc.refunds)) (hx : x ∈ acc.state.unbondRequests)
    (hu : x.user = u) (h : withdrawRequest t u acc x = .ok acc') :
    Frozen b₀ acc'.state (fs ++ acc'.refunds) := by
  have hbs := fun c (hc : c ∈ acc'.state.previousBatches) => mem_withdrawRequest_batches h hc
  obtain ⟨b, hb, ⟨-, rfl⟩ | ⟨-, -, -, -, rfl⟩⟩ := withdrawRequest_ok h
  · exact hF
  obtain ⟨hbm, hbx⟩ := (Store.load_eq_some hL.batch_ids_nodup).mp hb
  have hkey : ((x.id, u) : Nat × Addr) = x.key := by rw [UnbondRequest.key, hu]
  have hrem := Hub.sharesOf_remove hL.request_keys_nodup hx b₀.id
  have hshares := hF.shares_le
  dsimp only
  rw [hkey, ← List.append_assoc]
  refine ⟨hF.batch_lt, fun c hc hid => hF.stored_eq c (hbs c hc) hid, fun f hf hfk => ?_, ?_⟩
  · rcases List.mem_append.mp hf with hf | hf
    · exact hF.refunds_exact f hf hfk
    · obtain rfl := List.mem_singleton.mp hf
      obtain rfl := hF.stored_eq b hbm (hbx.trans hfk)
      rfl
  · rw [paidShares_snoc, hrem] at *
    dsimp only
    omega

theorem Frozen.withdrawUnbonded {u : Addr}
    (hL : Ledger s.pendingBatch s.previousBatches s.unbondRequests) (hF : Frozen b₀ s fs)
    (h : withdrawUnbonded s env u = .ok (s', r)) : Frozen b₀ s' (fs ++ r.refunds) := by
  obtain ⟨out, rfl, hr, hout⟩ := withdrawUnbonded_induction
    (P := fun acc => Ledger acc.state.pendingBatch acc.state.previousBatches
      acc.state.unbondRequests ∧ Frozen b₀ acc.state (fs ++ acc.refunds))
    (fun _ _ _ hLF hx hu h => ⟨hLF.1.withdrawRequest hx hu h, hLF.2.withdrawRequest hLF.1 hx hu h⟩)
    hL.request_keys_nodup ⟨hL, by simpa using hF⟩ h
  rw [← hr]
  exact hout.2

theorem Frozen.execute {sender : Addr} {op : Operation}
    (hL : Ledger s.pendingBatch s.previousBatches s.unbondRequests) (hF : Frozen b₀ s fs)
    (h : execute s env q sender op = .ok (s', r)) : Frozen b₀ s' (fs ++ r.refunds) := by
  obtain ⟨hw, hr⟩ := execute_writes h
  cases op
  case withdrawUnbonded => exact hF.withdrawUnbonded hL h
  all_goals rw [hr.resolve_right nofun, List.append_nil]
  case queueUnbond => exact hF.queueUnbond hL h
  case submitBatch => exact hF.submitBatch h
  all_goals simp only [Operation.Writes] at hw; rw [hw]; exact ⟨hF.1, hF.2, hF.3, hF.4⟩

end Step

variable {msg : InstantiateMsg} {env₀ : Env} {b₀ : Batch}

theorem Frozen.log {p₀ p : Env × State} {l : List (Operation × Response)}
    (hp₀ : Reachable msg env₀ p₀) (hF : Frozen b₀ p₀.2 []) (hl : Log p₀ l p) :
    Frozen b₀ p.2 (l.map (·.2.refunds)).flatten := by
  induction hl with
  | nil => exact hF
  | snoc hl' hst ih =>
    cases hst with
    | call _ _ _ _ _ _ _ h =>
      rw [List.map_append, List.flatten_append, List.map_singleton, List.flatten_singleton]
      exact ih.execute (Ledger.reachable (hp₀.log hl')) h

/-- Take batch `b₀` stored in a reachable state of the steak hub, and any calls after it. In
every later state a stored batch of its id is `b₀` itself; every refund paid for a request of
it is `uluna_unclaimed * shares / total_shares` of `b₀`; the shares paid from it stay within its
`total_shares`; and what it pays stays within its `uluna_unclaimed`. -/
theorem batch_refunds_within_unbonded {p₀ p : Env × State} {l : List (Operation × Response)}
    (hp₀ : Reachable msg env₀ p₀) (hb₀ : b₀ ∈ p₀.2.previousBatches) (hl : Log p₀ l p) :
    (∀ b ∈ p.2.previousBatches, b.id = b₀.id → b = b₀) ∧
    (∀ f ∈ (l.map (·.2.refunds)).flatten, f.request.id = b₀.id →
      f.amount = b₀.ulunaUnclaimed * f.request.shares / b₀.totalShares) ∧
    paidShares b₀.id (l.map (·.2.refunds)).flatten ≤ b₀.totalShares ∧
    paidOut b₀.id (l.map (·.2.refunds)).flatten ≤ b₀.ulunaUnclaimed := by
  have hF := (Frozen.init (Ledger.reachable hp₀) hb₀).log hp₀ hl
  have hle : paidShares b₀.id (l.map (·.2.refunds)).flatten ≤ b₀.totalShares :=
    (Nat.le_add_right _ _).trans hF.shares_le
  exact ⟨hF.stored_eq, hF.refunds_exact, hle, paidOut_le hF.refunds_exact hle⟩

theorem batch_refunds_within_unbonded_sample : ∃ (p₀ p : Env × State)
    (l : List (Operation × Response)) (b₀ : Batch), Reachable sampleMsg sampleEnv p₀ ∧
    b₀ ∈ p₀.2.previousBatches ∧ Log p₀ l p ∧
    paidOut b₀.id (l.map (·.2.refunds)).flatten = 9 ∧
    paidOut b₀.id (l.map (·.2.refunds)).flatten ≤ b₀.ulunaUnclaimed := by
  obtain ⟨p₀, p, l, hp₀, hl, hb₀, hpaid⟩ : ∃ p₀ p l, Reachable sampleMsg sampleEnv p₀ ∧
      Log p₀ l p ∧ ⟨1, 3, 10, 2074600⟩ ∈ p₀.2.previousBatches ∧
      paidOut 1 (l.map (·.2.refunds)).flatten = 9 :=
    ⟨_, _, _, reachable_of_runCalls (unbondCalls.take 5) rfl,
      runCalls_log (unbondCalls.drop 5) rfl, by decide, rfl⟩
  exact ⟨p₀, p, l, _, hp₀, hb₀, hl, hpaid, (batch_refunds_within_unbonded hp₀ hb₀ hl).2.2.2⟩

end LiquidStaking.SteakHub
