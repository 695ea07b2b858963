import LiquidStaking.Hub.Execute

/-! The owner's configuration over whole runs: only the owner's calls, and the owner candidate's
acceptance, change it; the validator roster stays free of duplicates, and the fee rate stays
under its ceiling, which never moves and never exceeds one. The roster does not keep the active
validators inside the whitelist: `remove_validator` puts the validator it removes back among the
active ones. -/

namespace LiquidStaking.Hub

theorem mem_pushIfAbsent {xs : List String} {v w : String} :
    w ∈ pushIfAbsent xs v ↔ w ∈ xs ∨ w = v := by
  unfold pushIfAbsent
  split
  · rename_i hv
    exact ⟨.inl, fun h => h.elim id fun h => h ▸ by simpa using hv⟩
  · simp

theorem nodup_pushIfAbsent {xs : List String} (h : xs.Nodup) (v : String) :
    (pushIfAbsent xs v).Nodup := by
  unfold pushIfAbsent
  split
  · exact h
  · rename_i hv
    rw [← List.concat_eq_append]
    exact h.concat (by simpa using hv)

structure Roster (validators validatorsActive : List String) : Prop where
  validators_nodup : validators.Nodup
  active_nodup : validatorsActive.Nodup

structure Fees (maxFee₀ feeRate maxFeeRate : Decimal) : Prop where
  fee_le : feeRate ≤ maxFeeRate
  max_le_one : maxFeeRate ≤ Decimal.one
  max_eq : maxFeeRate = maxFee₀

structure Governance where
  owner : Addr
  newOwner : Option Addr
  validators : List String
  validatorsActive : List String
  feeRate : Decimal
  maxFeeRate : Decimal
  unbondPeriod : Nat
  epochPeriod : Nat
  denom : String
  deriving DecidableEq

def State.governance (s : State) : Governance :=
  ⟨s.owner, s.newOwner, s.validators, s.validatorsActive, s.feeRate, s.maxFeeRate,
    s.unbondPeriod, s.epochPeriod, s.denom⟩

section
variable (sha256 : List UInt8 → Digest)
variable {s s' : State} {env : Env} {q : Querier} {sender : Addr} {r : Response}

/-- Only the calls that assert the owner, and `accept_ownership` by the owner candidate, change
the governed settings: every other successful call, by anyone, leaves them as they were. -/
theorem governance_needs_owner {op : Operation}
    (h : execute sha256 s env q sender op = .ok (s', r)) (howner : sender ≠ s.owner)
    (hnew : op = .acceptOwnership → s.newOwner ≠ some sender) :
    s'.governance = s.governance := by
  have hw := (execute_writes sha256 h).1
  cases op
  case addValidator => exact absurd (addValidator_ok h).1 howner
  case removeValidator =>
    simp only [LiquidStaking.Hub.execute] at h
    exact absurd (removeValidator_ok h).1 howner
  case removeValidatorEx => exact absurd (removeValidatorEx_ok h).1 howner
  case pauseValidator => exact absurd (pauseValidator_ok h).1 howner
  case unpauseValidator => exact absurd (unpauseValidator_ok h).1 howner
  case setUnbondPeriod => exact absurd (setUnbondPeriod_ok h).1 howner
  case transferOwnership => exact absurd (transferOwnership_ok h).1 howner
  case acceptOwnership => exact absurd (acceptOwnership_ok h).1 (hnew rfl)
  case changeDenom => exact absurd (changeDenom_ok h).1 howner
  case updateFee => exact absurd (updateFee_ok h).1 howner
  all_goals simp only [Operation.Writes] at hw; rw [hw]; rfl

theorem Roster.execute {op : Operation} (hR : Roster s.validators s.validatorsActive)
    (h : execute sha256 s env q sender op = .ok (s', r)) :
    Roster s'.validators s'.validatorsActive := by
  have hw := (execute_writes sha256 h).1
  cases op
  case addValidator =>
    obtain ⟨-, hv, rfl, -⟩ := addValidator_ok h
    rw [← List.concat_eq_append]
    exact ⟨hR.validators_nodup.concat hv, nodup_pushIfAbsent hR.active_nodup _⟩
  case removeValidator =>
    simp only [LiquidStaking.Hub.execute] at h
    obtain ⟨-, -, rfl, -⟩ := removeValidator_ok h
    exact ⟨hR.validators_nodup.filter _, nodup_pushIfAbsent hR.active_nodup _⟩
  case removeValidatorEx =>
    obtain ⟨-, -, rfl, -⟩ := removeValidatorEx_ok h
    exact ⟨hR.validators_nodup.filter _, hR.active_nodup⟩
  case pauseValidator =>
    obtain ⟨-, -, rfl, -⟩ := pauseValidator_ok h
    exact ⟨hR.validators_nodup, hR.active_nodup.filter _⟩
  case unpauseValidator =>
    obtain ⟨-, rfl, -⟩ := unpauseValidator_ok h
    exact ⟨hR.validators_nodup, nodup_pushIfAbsent hR.active_nodup _⟩
  all_goals simp only [Operation.Writes] at hw; rw [hw]; exact hR

theorem Fees.execute {op : Operation} {maxFee₀ : Decimal} (hF : Fees maxFee₀ s.feeRate s.maxFeeRate)
    (h : execute sha256 s env q sender op = .ok (s', r)) :
    Fees maxFee₀ s'.feeRate s'.maxFeeRate := by
  have hw := (execute_writes sha256 h).1
  cases op
  case updateFee =>
    obtain ⟨-, hf, rfl, -⟩ := updateFee_ok h
    exact ⟨hf, hF.max_le_one, hF.max_eq⟩
  all_goals simp only [Operation.Writes] at hw; rw [hw]; exact hF

theorem removeValidator_leaves_active {v : String}
    (h : removeValidator s env q sender v = .ok (s', r)) :
    v ∉ s'.validators ∧ v ∈ s'.validatorsActive := by
  obtain ⟨-, -, rfl, -⟩ := removeValidator_ok h
  exact ⟨by simp, mem_pushIfAbsent.mpr (.inr rfl)⟩

theorem reinvestFee_le {fee : Decimal} {amount : Nat} (hd : fee ≤ Decimal.one)
    (ha : amount < 2 ^ 128) : ∃ f, reinvestFee fee amount = .ok f ∧ f ≤ amount := by
  unfold reinvestFee
  split
  · exact ⟨0, rfl, Nat.zero_le _⟩
  · exact Decimal.checkedMulUint_le hd ha

section Run
variable {msg : InstantiateMsg} {env₀ : Env}

theorem Roster.reachable {allowed : Operation → Prop} {p : Env × State}
    (hp : Reachable sha256 allowed msg env₀ p) (hnd : msg.validators.Nodup) :
    Roster p.2.validators p.2.validatorsActive :=
  Reachable.induction sha256 (P := fun p => Roster p.2.validators p.2.validatorsActive)
    (fun _ h => by
      obtain ⟨-, -, -, -, hv, ha, -⟩ := instantiate_eq_ok h
      rw [hv, ha]
      exact ⟨hnd, hnd⟩)
    (fun _ _ _ _ _ hR hst => by cases hst with | call _ _ _ _ _ _ _ h => exact hR.execute sha256 h)
    hp

theorem Fees.reachable {allowed : Operation → Prop} {p : Env × State}
    (hp : Reachable sha256 allowed msg env₀ p) :
    Fees msg.maxFeeAmount p.2.feeRate p.2.maxFeeRate :=
  Reachable.induction sha256 (P := fun p => Fees msg.maxFeeAmount p.2.feeRate p.2.maxFeeRate)
    (fun _ h => by
      obtain ⟨hmax, hfee, hf, hm, -⟩ := instantiate_eq_ok h
      rw [hf, hm]
      exact ⟨hfee, hmax, rfl⟩)
    (fun _ _ _ _ _ hF hst => by cases hst with | call _ _ _ _ _ _ _ h => exact hF.execute sha256 h)
    hp

/-- In every reachable state the fee rate is under the ceiling, the ceiling is at most one and
is still the instantiated one; the fee of `reinvest` never fails on a `Uint128` amount and keeps
back at most that amount; and a successful `reinvest` delegates the rewards less the fee, which
add back up to the rewards. -/
theorem fee_bounded {env : Env} (hp : Reachable sha256 (fun _ => True) msg env₀ (env, s)) :
    s.feeRate ≤ s.maxFeeRate ∧ s.maxFeeRate ≤ Decimal.one ∧ s.maxFeeRate = msg.maxFeeAmount ∧
    (∀ amount, amount < 2 ^ 128 →
      ∃ feeAmount, reinvestFee s.feeRate amount = .ok feeAmount ∧ feeAmount ≤ amount) ∧
    ∀ env' q s' r, q.balance s.denom < 2 ^ 128 → reinvest s env' q = .ok (s', r) →
      ∃ validator feeAmount,
        reinvestFee s.feeRate (q.balance s.denom - s.prevDenom) = .ok feeAmount ∧
        r.messages = .delegate validator (q.balance s.denom - s.prevDenom - feeAmount) s.denom ::
          feeMsgs s feeAmount ∧
        q.balance s.denom - s.prevDenom - feeAmount + feeAmount = q.balance s.denom - s.prevDenom := by
  have hF : Fees msg.maxFeeAmount s.feeRate s.maxFeeRate := Fees.reachable sha256 hp
  have hone : s.feeRate ≤ Decimal.one := Decimal.le_def.mpr
    ((Decimal.le_def.mp hF.fee_le).trans (Decimal.le_def.mp hF.max_le_one))
  refine ⟨hF.fee_le, hF.max_le_one, hF.max_eq, fun _ ha => reinvestFee_le hone ha,
    fun env' q s' r hb h => ?_⟩
  obtain ⟨-, v, f, hf, hmsgs, -, -⟩ := reinvest_ok h
  obtain ⟨f', hf', hle⟩ := reinvestFee_le hone (lt_of_le_of_lt (Nat.sub_le _ _) hb)
  obtain rfl : f = f' := Except.ok.inj (hf.symm.trans hf')
  exact ⟨v, f, hf, hmsgs, Nat.sub_add_cancel hle⟩

end Run

end

theorem governance_needs_owner_sample : ∃ s,
    Reachable zeroDigest (fun _ => True) sampleMsg sampleEnv (sampleEnv, s) ∧ ∃ s' r,
      execute zeroDigest s ⟨1010, 150, "hub"⟩ { sampleQuerier with validator := fun _ => some "v1" }
        "mallory" (.submitProof 0 "valoper") = .ok (s', r) ∧
      "mallory" ≠ s.owner ∧ s.feeAccount ≠ s'.feeAccount ∧ s'.governance = s.governance := by
  obtain ⟨s, hp, hne, s', r, h, hfee⟩ : ∃ s,
      Reachable zeroDigest (fun _ => True) sampleMsg sampleEnv (sampleEnv, s) ∧
      "mallory" ≠ s.owner ∧ ∃ s' r,
        execute zeroDigest s ⟨1010, 150, "hub"⟩
          { sampleQuerier with validator := fun _ => some "v1" } "mallory"
          (.submitProof 0 "valoper") = .ok (s', r) ∧ s.feeAccount ≠ s'.feeAccount :=
    ⟨_, Reachable.instantiate zeroDigest rfl, by decide, _, _, rfl, by decide⟩
  exact ⟨s, hp, s', r, h, hne, hfee, governance_needs_owner zeroDigest h hne nofun⟩

theorem fee_bounded_sample : ∃ s s' r,
    Reachable zeroDigest (fun _ => True) sampleMsg sampleEnv (sampleEnv, s) ∧
    s.maxFeeRate = sampleMsg.maxFeeAmount ∧
    reinvest s sampleEnv { sampleQuerier with balance := fun _ => 1000 } = .ok (s', r) ∧
    ∃ validator, r.messages = .delegate validator 990 s.denom :: feeMsgs s 10 := by
  obtain ⟨s, hp, hprev, hfee, s', r, h⟩ : ∃ s,
      Reachable zeroDigest (fun _ => True) sampleMsg sampleEnv (sampleEnv, s) ∧ s.prevDenom = 0 ∧
      reinvestFee s.feeRate 1000 = .ok 10 ∧
      ∃ s' r, reinvest s sampleEnv { sampleQuerier with balance := fun _ => 1000 } = .ok (s', r) :=
    ⟨_, Reachable.instantiate zeroDigest rfl, rfl, rfl, _, _, rfl⟩
  obtain ⟨-, -, hmax, -, hre⟩ := fee_bounded zeroDigest hp
  obtain ⟨v, f, hf, hm, -⟩ := hre sampleEnv _ s' r (show 1000 < 2 ^ 128 by decide) h
  rw [hprev] at hf hm
  obtain rfl : f = 10 := Except.ok.inj (hf.symm.trans hfee)
  exact ⟨s, s', r, hp, hmax, h, v, hm⟩

def rosterQuerier : Querier :=
  { sampleQuerier with delegation := fun v => if v = "v1" then 1 else 5 }

/-- The owner removes `v1` from the whitelist; it stays active, and the next `bond` delegates to
it. -/
theorem removed_validator_gets_bond : ∃ s,
    Reachable zeroDigest (fun _ => True) sampleMsg sampleEnv (sampleEnv, s) ∧
    "v1" ∉ s.validators ∧ "v1" ∈ s.validatorsActive ∧
    ∃ s' r, bond s sampleEnv rosterQuerier "alice" 100 = .ok (s', r) ∧
      r.messages.head? = some (.delegate "v1" 100 "ujuno") := by
  have hp : Reachable zeroDigest (fun _ => True) sampleMsg sampleEnv (sampleEnv, _) :=
    reachable_of_runCalls zeroDigest
      [⟨sampleEnv, sampleQuerier, "hub", .registerSteakToken sampleTokenEvents⟩,
        ⟨sampleEnv, sampleQuerier, "owner", .removeValidator "v1"⟩] rfl rfl
  exact ⟨_, hp, by decide, by decide, _, _, rfl, rfl⟩

end LiquidStaking.Hub
