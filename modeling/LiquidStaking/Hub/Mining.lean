import LiquidStaking.Hub.State

/-! The proof-of-work gate of the hub: proofs are hex SHA-256 digests that must start with
`miner_difficulty` zeros; the difficulty follows the time between accepted proofs, and each
accepted proof credits its validator with the blocks mined since the last one. SHA-256 (the
`sha2` crate) is a parameter: any function to 32-byte digests. `hexEncode`, `leBytes` and
`startsWith` are `hex::encode`, `Uint64::to_le_bytes` and `str::starts_with`. -/

namespace LiquidStaking.Hub

structure Digest where
  bytes : List UInt8
  length_bytes : bytes.length = 32

def targetMiningDurationFloorSeconds : Nat := 20

def targetMiningDurationCeilingSeconds : Nat := 300

def utf8 (s : String) : List UInt8 := s.toUTF8.toList

def hexEncode (bs : List UInt8) : String :=
  String.mk (bs.flatMap fun b => [Nat.digitChar (b.toNat / 16), Nat.digitChar (b.toNat % 16)])

def leBytes (n : Nat) : List UInt8 := (List.range 8).map fun i => UInt8.ofNat (n / 256 ^ i)

def startsWith (s pre : String) : Bool := pre.toList.isPrefixOf s.toList

def createDifficultyPrefix (difficulty : Nat) : String := String.mk (List.replicate difficulty '0')

variable (sha256 : List UInt8 → Digest)
variable {s s' : State} {sender : Addr} {r : Response} {env : Env} {q : Querier}

def computeMinerProof (minerEntropy minerAddress : String) (nonce : Nat) : String :=
  hexEncode (sha256 (utf8 minerEntropy ++ utf8 minerAddress ++ leBytes nonce)).bytes

def updateDifficulty (s : State) (blockTime : Nat) (didSubmitProof : Bool) :
    Except StdError State := do
  let miningDuration ← sub blockTime s.minerLastMinedTimestamp
  if miningDuration > targetMiningDurationCeilingSeconds && s.minerDifficulty > 1 then
    let difficulty ← checkedSub64 s.minerDifficulty 1
    pure { s with minerDifficulty := difficulty }
  else if miningDuration < targetMiningDurationFloorSeconds && didSubmitProof then
    let difficulty ← checkedAdd64 s.minerDifficulty 1
    pure { s with minerDifficulty := difficulty }
  else pure s

theorem updateDifficulty_ok {t : Nat} {p : Bool} (h : updateDifficulty s t p = .ok s') :
    s.minerLastMinedTimestamp ≤ t ∧ s' = { s with minerDifficulty := s'.minerDifficulty } ∧
      (1 < s.minerDifficulty ∧ s'.minerDifficulty + 1 = s.minerDifficulty ∨
        p = true ∧ t - s.minerLastMinedTimestamp < targetMiningDurationFloorSeconds ∧
          s'.minerDifficulty = s.minerDifficulty + 1 ∨
        s'.minerDifficulty = s.minerDifficulty) := by
  unfold updateDifficulty at h
  obtain ⟨d, hd, h⟩ := bind_eq_ok.mp h
  obtain ⟨hle, rfl⟩ := sub_eq_ok.mp hd
  refine ⟨hle, ?_⟩
  split at h
  · rename_i hc
    obtain ⟨d', hd', h⟩ := bind_eq_ok.mp h
    obtain ⟨-, rfl⟩ := checkedSub64_eq_ok.mp hd'
    cases h
    simp only [Bool.and_eq_true, decide_eq_true_eq] at hc
    exact ⟨rfl, .inl ⟨hc.2, by simp; omega⟩⟩
  · split at h
    · rename_i _ hc
      obtain ⟨d', hd', h⟩ := bind_eq_ok.mp h
      obtain ⟨-, rfl⟩ := checkedAdd64_eq_ok.mp hd'
      cases h
      simp only [Bool.and_eq_true, decide_eq_true_eq] at hc
      exact ⟨rfl, .inr (.inl ⟨hc.2, hc.1, rfl⟩)⟩
    · cases h
      exact ⟨rfl, .inr (.inr rfl)⟩

theorem updateDifficulty_of_le {t : Nat} {p : Bool} (hle : s.minerLastMinedTimestamp ≤ t)
    (hd : s.minerDifficulty + 1 < 2 ^ 64) : ∃ s', updateDifficulty s t p = .ok s' := by
  unfold updateDifficulty
  rw [show sub t s.minerLastMinedTimestamp = .ok (t - s.minerLastMinedTimestamp) from
    sub_eq_ok.mpr ⟨hle, rfl⟩, ok_bind]
  split
  · rename_i hc
    simp only [Bool.and_eq_true, decide_eq_true_eq] at hc
    rw [show checkedSub64 s.minerDifficulty 1 = .ok (s.minerDifficulty - 1) from
      checkedSub64_eq_ok.mpr ⟨by omega, rfl⟩, ok_bind]
    exact ⟨_, rfl⟩
  · split
    · rw [show checkedAdd64 s.minerDifficulty 1 = .ok (s.minerDifficulty + 1) from
        checkedAdd64_eq_ok.mpr ⟨hd, rfl⟩, ok_bind]
      exact ⟨_, rfl⟩
    · exact ⟨_, rfl⟩

def updateEntropy (s : State) (env : Env) (entropy : String) :
    Except StdError (State × Response) := do
  let nextEntropy := hexEncode (sha256 (utf8 s.minerEntropyDraft ++ utf8 entropy)).bytes
  let s ← updateDifficulty { s with minerEntropyDraft := nextEntropy } env.time false
  pure (s, {})

theorem updateEntropy_ok {e : String} (h : updateEntropy sha256 s env e = .ok (s', r)) :
    updateDifficulty
      { s with minerEntropyDraft := hexEncode (sha256 (utf8 s.minerEntropyDraft ++ utf8 e)).bytes }
      env.time false = .ok s' ∧ r = {} := by
  unfold updateEntropy at h
  obtain ⟨s₁, h₁, h⟩ := bind_eq_ok.mp h
  cases h
  exact ⟨h₁, rfl⟩

def submitProof (s : State) (env : Env) (q : Querier) (sender : Addr) (nonce : Nat)
    (validatorAddress : String) : Except StdError (State × Response) := do
  let some validator := q.validator validatorAddress
    | throw (.genericErr "validator address not found in staking module")
  let entropyHash := computeMinerProof sha256 s.minerEntropy sender nonce
  if !startsWith entropyHash (createDifficultyPrefix s.minerDifficulty) then
    throw (.genericErr "block hash does not meet difficulty requirement")
  let minerEntropy := hexEncode (sha256 (utf8 s.minerEntropyDraft ++ utf8 entropyHash)).bytes
  let miningDurationBlocks ← sub env.height s.minerLastMinedBlock
  let s ← updateDifficulty s env.time true
  let power ← checkedAdd128 (s.miningPower validator) miningDurationBlocks
  let totalMiningPower ← checkedAdd128 s.totalMiningPower miningDurationBlocks
  pure ({ s with
      validatorMiningPowers := Store.save Prod.fst s.validatorMiningPowers (validator, power)
      totalMiningPower
      minerEntropy
      minerEntropyDraft := entropyHash
      minerLastMinedTimestamp := env.time
      minerLastMinedBlock := env.height
      feeAccountType := .wallet
      feeAccount := sender },
    { messages := [.harvest] })

theorem submitProof_ok {nonce : Nat} {va : String}
    (h : submitProof sha256 s env q sender nonce va = .ok (s', r)) :
    ∃ validator s₁, q.validator va = some validator ∧
      startsWith (computeMinerProof sha256 s.minerEntropy sender nonce)
        (createDifficultyPrefix s.minerDifficulty) = true ∧
      s.minerLastMinedBlock ≤ env.height ∧ updateDifficulty s env.time true = .ok s₁ ∧
      s₁.miningPower validator + (env.height - s.minerLastMinedBlock) < 2 ^ 128 ∧
      s₁.totalMiningPower + (env.height - s.minerLastMinedBlock) < 2 ^ 128 ∧
      s' = { s₁ with
        validatorMiningPowers := Store.save Prod.fst s₁.validatorMiningPowers
          (validator, s₁.miningPower validator + (env.height - s.minerLastMinedBlock))
        totalMiningPower := s₁.totalMiningPower + (env.height - s.minerLastMinedBlock)
        minerEntropy := hexEncode (sha256 (utf8 s.minerEntropyDraft ++
          utf8 (computeMinerProof sha256 s.minerEntropy sender nonce))).bytes
        minerEntropyDraft := computeMinerProof sha256 s.minerEntropy sender nonce
        minerLastMinedTimestamp := env.time
        minerLastMinedBlock := env.height
        feeAccountType := .wallet
        feeAccount := sender } ∧
      r = { messages := [.harvest] } := by
  unfold submitProof at h
  cases hv : q.validator va with
  | none => simp [hv] at h
  | some v =>
    by_cases hp : startsWith (computeMinerProof sha256 s.minerEntropy sender nonce)
        (createDifficultyPrefix s.minerDifficulty) = true
    · simp only [hv, hp, Bool.not_true, Bool.false_eq_true, ite_false, bind_eq_ok, sub_eq_ok,
        checkedAdd128_eq_ok, pure, Except.pure, Except.ok.injEq, Prod.mk.injEq] at h
      obtain ⟨-, -, _, ⟨hle, rfl⟩, s₁, h₁, _, ⟨hpw, rfl⟩, _, ⟨htot, rfl⟩, rfl, rfl⟩ := h
      exact ⟨v, s₁, rfl, hp, hle, h₁, hpw, htot, rfl, rfl⟩
    · simp [hv, hp] at h

end LiquidStaking.Hub
