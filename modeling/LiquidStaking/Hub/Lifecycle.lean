import LiquidStaking.Hub.Ledger

/-! The life of a stored batch. `submit_batch` stores the pending batch under a fresh id, not
reconciled; `reconcile` settles it once it has matured, and never again; after that only the
withdrawals touch it, to shrink it or to remove it; and an id once removed never comes back. -/

namespace LiquidStaking.Hub

inductive Evolves (op : Operation) (t : Nat) (b : Batch) : Batch → Prop
  | keep : Evolves op t b b
  | settle (a : Nat) : op = .reconcile → b.reconciled = false → b.estUnbondEndTime < t →
      a ≤ b.amountUnclaimed → Evolves op t b { b with reconciled := true, amountUnclaimed := a }
  | shrink (ts a : Nat) : op.withdraws = true → b.reconciled = true → a ≤ b.amountUnclaimed →
      Evolves op t b { b with totalShares := ts, amountUnclaimed := a }

namespace Evolves
variable {op : Operation} {t : Nat} {b b' : Batch}

theorem of_reconciled (h : Evolves op t b b') (hb : b.reconciled = true) :
    b'.reconciled = true ∧ b'.amountUnclaimed ≤ b.amountUnclaimed := by
  cases h with
  | keep => exact ⟨hb, le_rfl⟩
  | settle _ _ hr => rw [hr] at hb; cases hb
  | shrink _ _ _ _ ha => exact ⟨hb, ha⟩

theorem shrink_trans (h : Evolves op t b b') (hw : op.withdraws = true)
    (hb : b'.reconciled = true) {ts a : Nat} (ha : a ≤ b'.amountUnclaimed) :
    Evolves op t b { b' with totalShares := ts, amountUnclaimed := a } := by
  cases h with
  | keep => exact .shrink ts a hw hb ha
  | settle _ hop => rw [hop] at hw; cases hw
  | shrink _ _ _ hr ha' => exact .shrink ts a hw hr (ha.trans ha')

end Evolves

structure BatchesStep (op : Operation) (t : Nat) (s s' : State) : Prop where
  pending_le : s.pendingBatch.id ≤ s'.pendingBatch.id
  evolve : ∀ b' ∈ s'.previousBatches,
    (∃ b ∈ s.previousBatches, b.id = b'.id ∧ Evolves op t b b') ∨
      b'.id = s.pendingBatch.id ∧ b'.reconciled = false
  keep : op.withdraws = true → ∀ b ∈ s.previousBatches, b.reconciled = false →
    b ∈ s'.previousBatches

section
variable {op : Operation} {t : Nat} {s s' : State} {env : Env} {q : Querier} {r : Response}

theorem BatchesStep.of_eq (hb : s'.previousBatches = s.previousBatches)
    (hp : s'.pendingBatch.id = s.pendingBatch.id) : BatchesStep op t s s' :=
  ⟨hp.ge, fun b' h => .inl ⟨b', hb ▸ h, rfl, .keep⟩, fun _ _ h _ => hb ▸ h⟩

theorem BatchesStep.submitBatch (hL : Ledger s.pendingBatch s.previousBatches s.unbondRequests)
    (h : submitBatch s env q = .ok (s', r)) : BatchesStep .submitBatch t s s' := by
  obtain ⟨-, a, -, rfl, -⟩ := submitBatch_ok h
  refine ⟨Nat.le_succ _, fun b' hb' => ?_, nofun⟩
  rw [Store.save_of_forall_ne fun b hb => (hL.batch_id_lt b hb).ne, List.mem_append,
    List.mem_singleton] at hb'
  rcases hb' with hb' | rfl
  · exact .inl ⟨b', hb', rfl, .keep⟩
  · exact .inr ⟨rfl, rfl⟩

theorem BatchesStep.reconcile (hL : Ledger s.pendingBatch s.previousBatches s.unbondRequests)
    (h : reconcile s env q = .ok (s', r)) : BatchesStep .reconcile env.time s s' := by
  obtain ⟨rfl, -⟩ := reconcile_ok h
  refine ⟨le_rfl, fun b' hb' => .inl ?_, nofun⟩
  obtain ⟨b, hb, rfl⟩ := List.mem_map.mp ((foldl_save_settledBatches hL.batch_ids_nodup) ▸ hb')
  rcases settle_cases hL.batch_ids_nodup hb with h | ⟨hsel, a, ha, h⟩ <;> rw [h]
  · exact ⟨b, hb, rfl, .keep⟩
  · obtain ⟨-, hr, hend⟩ := mem_reconcileSelect.mp hsel
    exact ⟨b, hb, rfl, .settle a rfl hr hend ha⟩

theorem BatchesStep.withdrawRequest {t' : Nat} {u : Addr} {acc acc' : Withdrawal}
    {x : UnbondRequest} (hw : op.withdraws = true)
    (hL : Ledger acc.state.pendingBatch acc.state.previousBatches acc.state.unbondRequests)
    (hB : BatchesStep op t s acc.state) (h : withdrawRequest t' u acc x = .ok acc') :
    BatchesStep op t s acc'.state := by
  obtain rfl | ⟨b, f, hb, hr, -, -, -, -, -, rfl⟩ := withdrawRequest_ok h
  · exact hB
  obtain ⟨hbm, hbx⟩ := (Store.load_eq_some hL.batch_ids_nodup).mp hb
  refine ⟨hB.pending_le, fun c hc => ?_, fun hw' b₀ hb₀ hr₀ => ?_⟩
  · rcases mem_removeOrSave hc hbx with ⟨-, rfl⟩ | ⟨hc, -⟩
    · rcases hB.evolve b hbm with ⟨b₀, hb₀, hid, he⟩ | ⟨-, hr'⟩
      · exact .inl ⟨b₀, hb₀, hid, he.shrink_trans hw hr (Nat.sub_le _ _)⟩
      · rw [hr] at hr'; cases hr'
    · exact hB.evolve c hc
  · have hb₀' := hB.keep hw' b₀ hb₀ hr₀
    refine mem_removeOrSave_of_ne hb₀' (fun hk => ?_) hbx
    have hload := Store.load_of_mem hL.batch_ids_nodup hb₀'
    rw [hk, hb, Option.some.injEq] at hload
    rw [← hload, hr] at hr₀
    cases hr₀

theorem BatchesStep.withdrawUnbonded {user receiver : Addr} (hw : op.withdraws = true)
    (hL : Ledger s.pendingBatch s.previousBatches s.unbondRequests)
    (h : withdrawUnbonded s env user receiver = .ok (s', r)) : BatchesStep op t s s' := by
  obtain ⟨out, rfl, -, -, hB⟩ := withdrawUnbonded_induction (P := fun acc =>
      Ledger acc.state.pendingBatch acc.state.previousBatches acc.state.unbondRequests ∧
        BatchesStep op t s acc.state)
    (fun _ _ _ hP hx hu h => ⟨hP.1.withdrawRequest hx hu h, hP.2.withdrawRequest hw hP.1 h⟩)
    hL.request_keys_nodup ⟨hL, .of_eq rfl rfl⟩ h
  exact hB

structure Sealed (k A : Nat) (s : State) : Prop where
  lt_pending : k < s.pendingBatch.id
  sealed : ∀ b ∈ s.previousBatches, b.id = k → b.reconciled = true ∧ b.amountUnclaimed ≤ A

def Gone (k : Nat) (s : State) : Prop := k < s.pendingBatch.id ∧ ∀ b ∈ s.previousBatches, b.id ≠ k

theorem Sealed.step {k A : Nat} (hS : Sealed k A s) (hB : BatchesStep op t s s') :
    Sealed k A s' := by
  refine ⟨hS.lt_pending.trans_le hB.pending_le, fun b' hb' hk => ?_⟩
  rcases hB.evolve b' hb' with ⟨b, hb, hid, he⟩ | ⟨hid, -⟩
  · obtain ⟨hr, ha⟩ := hS.sealed b hb (hid.trans hk)
    obtain ⟨hr', ha'⟩ := he.of_reconciled hr
    exact ⟨hr', ha'.trans ha⟩
  · have := hS.lt_pending
    omega

theorem Gone.step {k : Nat} (hG : Gone k s) (hB : BatchesStep op t s s') : Gone k s' := by
  refine ⟨hG.1.trans_le hB.pending_le, fun b' hb' hk => ?_⟩
  rcases hB.evolve b' hb' with ⟨b, hb, hid, -⟩ | ⟨hid, -⟩
  · exact hG.2 b hb (hid.trans hk)
  · have := hG.1
    omega

theorem BatchesStep.evolves (hB : BatchesStep op t s s')
    (hL : Ledger s.pendingBatch s.previousBatches s.unbondRequests) {b₀ b : Batch}
    (hb₀ : b₀ ∈ s.previousBatches) (hb : b ∈ s'.previousBatches) (hid : b.id = b₀.id) :
    Evolves op t b₀ b := by
  rcases hB.evolve b hb with ⟨c, hc, hcid, he⟩ | ⟨hpend, -⟩
  · obtain rfl := List.inj_on_of_nodup_map hL.batch_ids_nodup hc hb₀ (hcid.trans hid)
    exact he
  · have := hL.batch_id_lt b₀ hb₀
    omega

theorem Sealed.of_mem (hL : Ledger s.pendingBatch s.previousBatches s.unbondRequests) {b : Batch}
    (hb : b ∈ s.previousBatches) (hr : b.reconciled = true) : Sealed b.id b.amountUnclaimed s :=
  ⟨hL.batch_id_lt b hb, fun c hc hid => by
    obtain rfl := List.inj_on_of_nodup_map hL.batch_ids_nodup hc hb hid
    exact ⟨hr, le_rfl⟩⟩

theorem Sealed.reconcile (hL : Ledger s.pendingBatch s.previousBatches s.unbondRequests)
    (h : reconcile s env q = .ok (s', r)) {c : Batch}
    (hc : c ∈ reconcileSelect s.previousBatches env.time) : Sealed c.id c.amountUnclaimed s' := by
  obtain ⟨rfl, -⟩ := reconcile_ok h
  have hnd := hL.batch_ids_nodup
  have hcm := (mem_reconcileSelect.mp hc).1
  refine ⟨hL.batch_id_lt c hcm, fun b' hb' hid => ?_⟩
  obtain ⟨b, hb, rfl⟩ := List.mem_map.mp ((foldl_save_settledBatches hnd) ▸ hb')
  obtain rfl : b = c := by
    rcases settle_cases hnd hb with h | ⟨-, a, -, h⟩ <;> rw [h] at hid <;>
      exact List.inj_on_of_nodup_map hnd hb hcm hid
  obtain ⟨a, ha, h⟩ := settle_of_mem hnd hc
  rw [h]
  exact ⟨rfl, ha⟩

variable (sha256 : List UInt8 → Digest)

theorem BatchesStep.execute {sender : Addr}
    (hL : Ledger s.pendingBatch s.previousBatches s.unbondRequests)
    (h : execute sha256 s env q sender op = .ok (s', r)) : BatchesStep op env.time s s' := by
  have hw := (execute_writes sha256 h).1
  cases op
  case queueUnbond => obtain ⟨rfl, -⟩ := queueUnbond_ok h; exact .of_eq rfl rfl
  case submitBatch => exact .submitBatch hL h
  case reconcile => exact .reconcile hL h
  case withdrawUnbonded => exact .withdrawUnbonded rfl hL h
  case withdrawUnbondedAdmin => exact .withdrawUnbonded rfl hL (withdrawUnbondedAdmin_ok h).2
  all_goals
    simp only [Operation.Writes] at hw
    exact .of_eq (by rw [hw]) (by rw [hw])

theorem BatchesStep.step {msg : InstantiateMsg} {env₀ : Env} {p p' : Env × State}
    {op : Operation} {r : Response} (hp : Reachable sha256 (fun _ => True) msg env₀ p)
    (hst : Step sha256 p op r p') : BatchesStep op p'.1.time p.2 p'.2 := by
  cases hst with
  | call _ _ _ _ _ _ _ h => exact .execute sha256 (Ledger.reachable sha256 hp) h

theorem BatchesStep.run_induction {P : State → Prop}
    (hstep : ∀ op t s s', P s → BatchesStep op t s s' → P s') {msg : InstantiateMsg} {env₀ : Env}
    {p p' : Env × State} (hp : Reachable sha256 (fun _ => True) msg env₀ p) (hP : P p.2)
    (hrun : Run sha256 (fun _ => True) p p') : P p'.2 :=
  Reachable.run_induction sha256 (P := fun p => P p.2) hp hP
    (fun _ _ _ _ hq hP hst => hstep _ _ _ _ hP (.step sha256 hq hst)) hrun

/-- Along every run from a reachable state: a call changes a stored batch only as `Evolves`
allows; a withdrawal keeps every batch that is not reconciled; the batches a `reconcile` selects
are reconciled from then on and never selected again; a reconciled batch stays reconciled, and
holds no more, until it is removed; and an id once removed never comes back. -/
theorem batch_reconciled_once {msg : InstantiateMsg} {env₀ : Env} {p₀ p₁ p : Env × State}
    {op : Operation} {r : Response} (hp₀ : Reachable sha256 (fun _ => True) msg env₀ p₀)
    (hst : Step sha256 p₀ op r p₁) (hrun : Run sha256 (fun _ => True) p₁ p) :
    (∀ b₀ ∈ p₀.2.previousBatches, ∀ b ∈ p₁.2.previousBatches, b.id = b₀.id →
      Evolves op p₁.1.time b₀ b) ∧
    (op.withdraws = true → ∀ b₀ ∈ p₀.2.previousBatches, b₀.reconciled = false →
      b₀ ∈ p₁.2.previousBatches) ∧
    (op = .reconcile → ∀ c ∈ reconcileSelect p₀.2.previousBatches p₁.1.time,
      (∀ b ∈ p.2.previousBatches, b.id = c.id → b.reconciled = true) ∧
      ∀ t, ∀ b ∈ reconcileSelect p.2.previousBatches t, b.id ≠ c.id) ∧
    (∀ b₀ ∈ p₀.2.previousBatches, b₀.reconciled = true → ∀ b ∈ p.2.previousBatches,
      b.id = b₀.id → b.reconciled = true ∧ b.amountUnclaimed ≤ b₀.amountUnclaimed) ∧
    ∀ k < p₀.2.pendingBatch.id, (∀ b ∈ p₀.2.previousBatches, b.id ≠ k) →
      ∀ b ∈ p.2.previousBatches, b.id ≠ k := by
  have hL := Ledger.reachable sha256 hp₀
  have hB := BatchesStep.step sha256 hp₀ hst
  have hrun₀ : Run sha256 (fun _ => True) p₀ p := .head ⟨op, r, trivial, hst⟩ hrun
  refine ⟨fun b₀ hb₀ b hb hid => hB.evolves hL hb₀ hb hid, hB.keep, ?_,
    fun b₀ hb₀ hr => (BatchesStep.run_induction sha256 (fun _ _ _ _ h hB => h.step hB) hp₀
      (Sealed.of_mem hL hb₀ hr) hrun₀).sealed,
    fun k hk hG => (BatchesStep.run_induction sha256 (fun _ _ _ _ h hB => Gone.step h hB) hp₀
      ⟨hk, hG⟩ hrun₀).2⟩
  rintro rfl c hc
  have hS : Sealed c.id c.amountUnclaimed p.2 := by
    refine BatchesStep.run_induction sha256 (fun _ _ _ _ h hB => h.step hB)
      (Reachable.step sha256 hp₀ trivial hst) ?_ hrun
    cases hst with
    | call _ _ _ _ _ _ _ h => exact Sealed.reconcile hL h hc
  refine ⟨fun b hb hid => (hS.sealed b hb hid).1, fun t b hb hid => ?_⟩
  obtain ⟨hb, hr, -⟩ := mem_reconcileSelect.mp hb
  rw [(hS.sealed b hb hid).1] at hr
  cases hr

theorem batch_reconciled_once_sample : ∃ (p₀ p₁ p : Env × State) (r : Response) (c : Batch),
    Reachable zeroDigest (fun _ => True) sampleMsg sampleEnv p₀ ∧
    Step zeroDigest p₀ .reconcile r p₁ ∧ Run zeroDigest (fun _ => True) p₁ p ∧
    c ∈ reconcileSelect p₀.2.previousBatches p₁.1.time ∧
    ∀ t, ∀ b ∈ reconcileSelect p.2.previousBatches t, b.id ≠ c.id := by
  have hp₀ : Reachable zeroDigest (fun _ => True) sampleMsg sampleEnv _ :=
    reachable_of_runCalls zeroDigest (sampleCalls.take 3) rfl rfl
  obtain ⟨r, hp₁, hst⟩ :=
    hp₀.runCall zeroDigest ⟨⟨2074601, 300, "hub"⟩, sampleQuerier, "hub", .reconcile⟩ rfl
  have hrun := (hp₁.runCalls zeroDigest
    [⟨⟨2074601, 300, "hub"⟩, sampleQuerier, "bob", .queueUnbond "bob" 10⟩,
      ⟨⟨2074601, 300, "hub"⟩, sampleQuerier, "hub", .submitBatch⟩,
      ⟨⟨3889002, 500, "hub"⟩, sampleQuerier, "hub", .reconcile⟩] rfl).2.run
  exact ⟨_, _, _, r, _, hp₀, hst, hrun, List.Mem.head _,
    ((batch_reconciled_once zeroDigest hp₀ hst hrun).2.2.1 rfl _ (List.Mem.head _)).2⟩

structure EpochAfter (t e : Nat) (p : Env × State) : Prop where
  epoch_eq : p.2.epochPeriod = e
  time_le : t ≤ p.1.time
  start_ge : t + e ≤ p.2.pendingBatch.estUnbondStartTime

theorem EpochAfter.step {t e : Nat} {p p' : Env × State} {op : Operation} {r : Response}
    (hE : EpochAfter t e p) (hst : Step sha256 p op r p') : EpochAfter t e p' := by
  cases hst with
  | call env' q sender _ htime _ _ h =>
    have hw := (execute_writes sha256 h).1
    have hlt := hE.time_le.trans htime
    cases op
    case queueUnbond => obtain ⟨rfl, -⟩ := queueUnbond_ok h; exact ⟨hE.1, hlt, hE.3⟩
    case submitBatch =>
      obtain ⟨-, -, -, rfl, -⟩ := submitBatch_ok h
      exact ⟨hE.1, hlt, Nat.add_le_add hlt hE.1.ge⟩
    all_goals simp only [Operation.Writes] at hw; rw [hw]; exact ⟨hE.1, hlt, hE.3⟩

theorem EpochAfter.run {t e : Nat} {allowed : Operation → Prop} {p p' : Env × State}
    (hE : EpochAfter t e p) (hrun : Run sha256 allowed p p') : EpochAfter t e p' := by
  induction hrun with
  | refl => exact hE
  | tail _ hst ih =>
    obtain ⟨_, _, -, hst⟩ := hst
    exact ih.step sha256 hst

/-- Two `submit_batch` calls of a run come at least `epoch_period` apart: each one starts the
next batch an epoch after its own block, no call moves that start or changes the epoch, and
`submit_batch` fails before the start. -/
theorem batches_submitted_epoch_apart {p₀ p₁ p₂ p₃ : Env × State} {r r' : Response}
    (h₁ : Step sha256 p₀ .submitBatch r p₁) (hrun : Run sha256 (fun _ => True) p₁ p₂)
    (h₃ : Step sha256 p₂ .submitBatch r' p₃) : p₁.1.time + p₀.2.epochPeriod ≤ p₃.1.time := by
  have hE₁ : EpochAfter p₁.1.time p₀.2.epochPeriod p₁ := by
    cases h₁ with
    | call _ _ _ _ _ _ _ h =>
      obtain ⟨-, -, -, rfl, -⟩ := submitBatch_ok h
      exact ⟨rfl, le_rfl, le_rfl⟩
  cases h₃ with
  | call _ _ _ _ _ _ _ h => exact (hE₁.run sha256 hrun).start_ge.trans (submitBatch_ok h).1

theorem batches_submitted_epoch_apart_sample : ∃ (p₀ p₁ p₃ : Env × State) (r r' : Response),
    Step zeroDigest p₀ .submitBatch r p₁ ∧ Step zeroDigest p₁ .submitBatch r' p₃ ∧
    p₁.1.time = 260200 ∧ p₃.1.time = 519400 ∧ p₁.1.time + p₀.2.epochPeriod ≤ p₃.1.time := by
  have hp₀ : Reachable zeroDigest (fun _ => True) sampleMsg sampleEnv _ :=
    reachable_of_runCalls zeroDigest (sampleCalls.take 2) rfl rfl
  obtain ⟨r, hp₁, h₁⟩ :=
    hp₀.runCall zeroDigest ⟨⟨260200, 200, "hub"⟩, sampleQuerier, "hub", .submitBatch⟩ rfl
  obtain ⟨r', -, h₃⟩ :=
    hp₁.runCall zeroDigest ⟨⟨519400, 300, "hub"⟩, sampleQuerier, "hub", .submitBatch⟩ rfl
  exact ⟨_, _, _, r, r', h₁, h₃, rfl, rfl, batches_submitted_epoch_apart zeroDigest h₁ .refl h₃⟩

end

end LiquidStaking.Hub
