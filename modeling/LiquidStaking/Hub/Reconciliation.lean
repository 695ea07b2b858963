import LiquidStaking.Hub.Withdrawal

/-! What `reconcile` promises. The shortfall it spreads is measured against the batches it
settles and the unlocked coins only: the balance covers those, but what earlier reconciled
batches still hold is not counted, and it can hide a shortfall. -/

namespace LiquidStaking.Hub

def reconciledTotal (bs : List Batch) : Nat := unclaimedTotal (bs.filter (·.reconciled))

theorem sum_map_ite_eq {α : Type} (l : List α) (p : α → Bool) (f : α → Nat) :
    (l.map fun x => if p x then f x else 0).sum = ((l.filter p).map f).sum := by
  rw [List.sum_map_ite]
  simp

theorem filter_mem_reconcileSelect (bs : List Batch) (t : Nat) :
    bs.filter (fun b => decide (b ∈ reconcileSelect bs t)) = reconcileSelect bs t := by
  rw [reconcileSelect, List.filter_filter]
  exact List.filter_congr fun b hb => by simp [hb, Bool.and_comm]

section Settle
variable {bs : List Batch} {t n : Nat}

theorem map_settle_reconcileSelect (hnd : (bs.map (·.id)).Nodup) :
    (reconcileSelect bs t).map (settle bs t n) = settledBatches bs t n :=
  Store.map_load_of_map_key_eq map_id_settledBatches
    (hnd.sublist (((List.filter_sublist _).trans (List.filter_sublist _)).map _))

theorem reconciledTotal_map_settle (hnd : (bs.map (·.id)).Nodup) :
    reconciledTotal (bs.map (settle bs t n)) =
      reconciledTotal bs + unclaimedTotal (reconcileDeduct (reconcileSelect bs t) n) := by
  have hsplit : ∀ b ∈ bs,
      (if (settle bs t n b).reconciled then (settle bs t n b).amountUnclaimed else 0) =
        (if b.reconciled then b.amountUnclaimed else 0) +
          if decide (b ∈ reconcileSelect bs t) then (settle bs t n b).amountUnclaimed else 0 := by
    intro b hb
    by_cases hsel : b ∈ reconcileSelect bs t
    · obtain ⟨a, -, h⟩ := settle_of_mem (n := n) hnd hsel
      simp [h, hsel, (mem_reconcileSelect.mp hsel).2.1]
    · simp [settle_of_not_mem hnd hb hsel, hsel]
  have hsettled := congrArg (fun l => (l.map (·.amountUnclaimed)).sum)
    (map_settle_reconcileSelect (t := t) (n := n) hnd)
  simp only [List.map_map, Function.comp_def] at hsettled
  simp only [reconciledTotal, unclaimedTotal, ← sum_map_ite_eq, List.map_map, Function.comp_def]
  rw [List.map_congr_left hsplit, List.sum_map_add, sum_map_ite_eq, sum_map_ite_eq,
    filter_mem_reconcileSelect, hsettled]
  simp [settledBatches, Function.comp_def]

end Settle

variable {s s' : State} {env : Env} {q : Querier} {r : Response}

/-- The spread shortfall is measured against the settled batches and the unlocked coins: when
the balance covers the unlocked coins, it covers them and what `reconcile` settles, on top of
what was reconciled before. -/
theorem reconcile_covers_settled (hnd : (s.previousBatches.map (·.id)).Nodup)
    (hU : Coins.find s.unlockedCoins s.denom ≤ q.balance s.denom)
    (h : reconcile s env q = .ok (s', r)) :
    Coins.find s'.unlockedCoins s'.denom + reconciledTotal s'.previousBatches ≤
      q.balance s.denom + reconciledTotal s.previousBatches := by
  obtain ⟨rfl, -⟩ := reconcile_ok h
  dsimp only
  rw [foldl_save_settledBatches hnd, reconciledTotal_map_settle hnd,
    unclaimedTotal_reconcileDeduct]
  omega

theorem reconcile_covers_settled_sample : ∃ p,
    Reachable zeroDigest (fun _ => True) sampleMsg sampleEnv p ∧ ∃ s' r,
      reconcile p.2 ⟨3889002, 500, "hub"⟩ sampleQuerier = .ok (s', r) ∧
      (p.2.previousBatches.map (·.id)).Nodup ∧
      Coins.find p.2.unlockedCoins p.2.denom ≤ sampleQuerier.balance p.2.denom ∧
      Coins.find s'.unlockedCoins s'.denom + reconciledTotal s'.previousBatches ≤
        sampleQuerier.balance p.2.denom + reconciledTotal p.2.previousBatches := by
  obtain ⟨p, hp, hU, s', r, h⟩ : ∃ p, Reachable zeroDigest (fun _ => True) sampleMsg sampleEnv p ∧
      Coins.find p.2.unlockedCoins p.2.denom ≤ sampleQuerier.balance p.2.denom ∧
      ∃ s' r, reconcile p.2 ⟨3889002, 500, "hub"⟩ sampleQuerier = .ok (s', r) :=
    ⟨_, reachable_of_runCalls zeroDigest (sampleCalls ++
      ([⟨⟨2074601, 300, "hub"⟩, sampleQuerier, "bob", .queueUnbond "bob" 10⟩,
        ⟨⟨2074601, 300, "hub"⟩, sampleQuerier, "hub", .submitBatch⟩] : List Call)) rfl rfl,
      by decide, _, _, rfl⟩
  have hnd := (Ledger.reachable zeroDigest hp).batch_ids_nodup
  exact ⟨p, hp, s', r, h, hnd, hU, reconcile_covers_settled hnd hU h⟩

/-- Alice's batch is reconciled and still holds her 10; Bob's batch matures, and the 10 it
unbonded never arrive. The balance covers the unlocked coins and Alice's batch, and the
shortfall goes unseen: both batches are now reconciled and promise 20. -/
theorem reconcile_hides_shortfall :
    ∃ p, Reachable zeroDigest (fun _ => True) sampleMsg sampleEnv p ∧
      ∃ env q s' r, reconcile p.2 env q = .ok (s', r) ∧
        Coins.find p.2.unlockedCoins p.2.denom + reconciledTotal p.2.previousBatches ≤
          q.balance p.2.denom ∧
        q.balance p.2.denom < Coins.find s'.unlockedCoins s'.denom + reconciledTotal s'.previousBatches := by
  have hp : Reachable zeroDigest (fun _ => True) sampleMsg sampleEnv _ :=
    reachable_of_runCalls zeroDigest (sampleCalls ++
      ([⟨⟨2074601, 300, "hub"⟩, sampleQuerier, "bob", .queueUnbond "bob" 10⟩,
        ⟨⟨2074601, 300, "hub"⟩, sampleQuerier, "hub", .submitBatch⟩] : List Call)) rfl rfl
  exact ⟨_, hp, ⟨3889002, 500, "hub"⟩, sampleQuerier, _, _, rfl, by decide, by decide⟩

/-! The unlocked coins `reconcile` counts are credited by `register_received_coins`, with the
coins of the `coin_received` events addressed to the contract, and dropped denom by denom by
`reinvest`. Every call keeps one entry per denom, so `find` reads the whole unlocked amount. -/

section Received
variable (sha256 : List UInt8 → Digest) {env : Env}

theorem foldlM_receivedCoins {events : List Event} {acc rc : List Coin}
    (hnd : (acc.map (·.denom)).Nodup)
    (h : events.foldlM (fun acc event => do
      Coins.addMany acc (← parseCoinReceivingEvent env event)) acc = .ok rc) :
    ∃ received, events.mapM (parseCoinReceivingEvent env) = .ok received ∧
      (rc.map (·.denom)).Nodup ∧
      ∀ denom, Coins.find rc denom =
        Coins.find acc denom + (received.map (Coins.amountOf · denom)).sum := by
  induction events generalizing acc with
  | nil => cases h; exact ⟨[], rfl, hnd, fun _ => by simp⟩
  | cons e es ih =>
    simp only [List.foldlM_cons, bind_eq_ok] at h
    obtain ⟨acc₁, ⟨cs, hcs, h₁⟩, h⟩ := h
    obtain ⟨received, hrec, hnd', hfind⟩ := ih (Coins.nodup_addMany hnd h₁) h
    refine ⟨cs :: received, by rw [List.mapM_cons, hcs, hrec]; rfl, hnd', fun d => ?_⟩
    rw [hfind, Coins.find_addMany h₁, List.map_cons, List.sum_cons, Nat.add_assoc]

theorem registerReceivedCoins_addMany {s s' : State} {r : Response} {events : List Event}
    (h : registerReceivedCoins s env events = .ok (s', r)) :
    ∃ received rc,
      (events.filter (·.ty = "coin_received")).mapM (parseCoinReceivingEvent env) =
        .ok received ∧ (rc.map (·.denom)).Nodup ∧
      (∀ denom, Coins.find rc denom = (received.map (Coins.amountOf · denom)).sum) ∧
      Coins.addMany s.unlockedCoins rc = .ok s'.unlockedCoins := by
  unfold registerReceivedCoins at h
  dsimp only at h
  split at h
  · rename_i hempty
    cases h
    exact ⟨[], [], by rw [List.isEmpty_iff.mp hempty]; rfl, List.nodup_nil, fun _ => rfl, rfl⟩
  · simp only [bind_eq_ok, pure, Except.pure, Except.ok.injEq, Prod.mk.injEq] at h
    obtain ⟨-, -, rc, hrc, out, hout, rfl, rfl⟩ := h
    obtain ⟨received, hrec, hnd, hfind⟩ := foldlM_receivedCoins (by exact List.nodup_nil) hrc
    exact ⟨received, rc, hrec, hnd, fun d => by rw [hfind]; exact Nat.zero_add _, hout⟩

/-- `register_received_coins` credits each denom of the unlocked coins with exactly what the
call's `coin_received` events carry of it: the coins of those addressed to the contract, and
nothing for the others. -/
theorem registerReceivedCoins_credits {s s' : State} {r : Response} {events : List Event}
    (h : registerReceivedCoins s env events = .ok (s', r)) :
    ∃ received, (events.filter (·.ty = "coin_received")).mapM (parseCoinReceivingEvent env) =
        .ok received ∧
      ∀ denom, Coins.find s'.unlockedCoins denom =
        Coins.find s.unlockedCoins denom + (received.map (Coins.amountOf · denom)).sum := by
  obtain ⟨received, rc, hrec, hnd, hrc, hadd⟩ := registerReceivedCoins_addMany h
  exact ⟨received, hrec, fun d => by rw [Coins.find_addMany hadd, Coins.amountOf_eq_find hnd, hrc]⟩

def receivedEvents : List Event :=
  [⟨"coin_received", [("receiver", "hub"), ("amount", "100ujuno")]⟩,
    ⟨"transfer", [("recipient", "hub"), ("amount", "7ujuno")]⟩,
    ⟨"coin_received", [("receiver", "other"), ("amount", "5ujuno")]⟩]

theorem registerReceivedCoins_credits_sample : ∃ s s' r,
    registerReceivedCoins s sampleEnv receivedEvents = .ok (s', r) ∧
    Coins.find s'.unlockedCoins "ujuno" = Coins.find s.unlockedCoins "ujuno" + 100 := by
  obtain ⟨s, s', r, -, h⟩ : ∃ s s' r, instantiate sampleEnv sampleMsg = .ok s ∧
      registerReceivedCoins s sampleEnv receivedEvents = .ok (s', r) := ⟨_, _, _, rfl, rfl⟩
  obtain ⟨received, hrec, hfind⟩ := registerReceivedCoins_credits h
  obtain rfl : received = [[⟨"ujuno", 100⟩], []] := Except.ok.inj (hrec.symm.trans rfl)
  exact ⟨s, s', r, h, hfind "ujuno"⟩

theorem unlockedCoins_instantiate {msg : InstantiateMsg} {s : State}
    (h : instantiate env msg = .ok s) : s.unlockedCoins = [] := by
  obtain ⟨hmax, hfee, -⟩ := instantiate_eq_ok h
  unfold instantiate at h
  cases hf : FeeType.fromStr msg.feeAccountType <;>
    simp [hf, Nat.not_lt.mpr hmax, Nat.not_lt.mpr hfee] at h
  cases h; rfl

theorem nodup_unlockedCoins_execute {s s' : State} {q : Querier} {sender : Addr} {r : Response}
    {op : Operation} (hnd : (s.unlockedCoins.map (·.denom)).Nodup)
    (h : execute sha256 s env q sender op = .ok (s', r)) :
    (s'.unlockedCoins.map (·.denom)).Nodup := by
  have hw := (execute_writes sha256 h).1
  cases op <;> simp only [execute] at h
  case reinvest =>
    obtain ⟨-, -, -, -, -, rfl, -⟩ := reinvest_ok h
    exact hnd.sublist ((List.filter_sublist _).map _)
  case registerReceivedCoins =>
    obtain ⟨-, rc, -, -, -, hadd⟩ := registerReceivedCoins_addMany h
    exact Coins.nodup_addMany hnd hadd
  all_goals simp only [Operation.Writes] at hw; rw [hw]; exact hnd

/-- In every reachable state of the hub the unlocked coins hold at most one entry per denom, so
the amount `reconcile` reads with `find` is everything the contract holds unlocked of the
denom. -/
theorem unlocked_coins_one_entry_per_denom {allowed : Operation → Prop} {msg : InstantiateMsg}
    {env₀ : Env} {p : Env × State} (hp : Reachable sha256 allowed msg env₀ p) :
    (p.2.unlockedCoins.map (·.denom)).Nodup ∧
      ∀ denom, Coins.find p.2.unlockedCoins denom = Coins.amountOf p.2.unlockedCoins denom := by
  have hnd : (p.2.unlockedCoins.map (·.denom)).Nodup :=
    Reachable.induction sha256 (P := fun p => (p.2.unlockedCoins.map (·.denom)).Nodup)
      (fun _ h => by dsimp only; rw [unlockedCoins_instantiate h]; exact List.nodup_nil)
      (fun _ _ _ _ _ hnd hst => by
        cases hst with | call _ _ _ _ _ _ _ h => exact nodup_unlockedCoins_execute sha256 hnd h)
      hp
  exact ⟨hnd, fun d => (Coins.amountOf_eq_find hnd d).symm⟩

theorem unlocked_coins_one_entry_per_denom_sample : ∃ p,
    Reachable zeroDigest (fun _ => True) sampleMsg sampleEnv p ∧
      p.2.unlockedCoins = [⟨"ujuno", 200⟩] ∧
      Coins.find p.2.unlockedCoins "ujuno" = Coins.amountOf p.2.unlockedCoins "ujuno" := by
  obtain ⟨p, hp, hc⟩ : ∃ p, Reachable zeroDigest (fun _ => True) sampleMsg sampleEnv p ∧
      p.2.unlockedCoins = [⟨"ujuno", 200⟩] :=
    ⟨_, reachable_of_runCalls zeroDigest
      (List.replicate 2 ⟨sampleEnv, sampleQuerier, "hub", .registerReceivedCoins receivedEvents⟩)
      rfl rfl, rfl⟩
  exact ⟨p, hp, hc, (unlocked_coins_one_entry_per_denom zeroDigest hp).2 "ujuno"⟩

end Received

end LiquidStaking.Hub
