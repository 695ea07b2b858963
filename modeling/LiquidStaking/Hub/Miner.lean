import LiquidStaking.Hub.Execute

/-! The miner's books over whole runs. Each accepted proof credits its validator with the blocks
since the last accepted one, so the powers add up to the blocks mined since instantiation; the
difficulty moves by one at a time, rises only on a fast accepted proof, and stays within what a
64-digit proof can meet. -/

namespace LiquidStaking.Hub

theorem length_hexEncode (bs : List UInt8) : (hexEncode bs).length = 2 * bs.length := by
  induction bs with
  | nil => rfl
  | cons b bs ih =>
    simp only [hexEncode, String.length, List.flatMap_cons, List.length_append, List.length_cons,
      List.length_nil] at ih ⊢
    omega

theorem length_computeMinerProof (sha256 : List UInt8 → Digest) (e a : String) (n : Nat) :
    (computeMinerProof sha256 e a n).length = 64 := by
  rw [computeMinerProof, length_hexEncode, Digest.length_bytes]

theorem le_length_of_startsWith {str : String} {d : Nat}
    (h : startsWith str (createDifficultyPrefix d) = true) : d ≤ str.length := by
  have hpre : (List.replicate d '0').IsPrefix str.toList := List.isPrefixOf_iff_prefix.mp h
  calc d = (List.replicate d '0').length := (List.length_replicate d '0').symm
    _ ≤ str.toList.length := hpre.length_le
    _ = str.length := rfl

structure MiningPower (h₀ height : Nat) (powers : List (String × Nat)) (total lastBlock : Nat) :
    Prop where
  keys_nodup : (powers.map Prod.fst).Nodup
  total_eq_sum : total = (powers.map (·.2)).sum
  total_add : total + h₀ = lastBlock
  last_le : lastBlock ≤ height

structure Difficulty (time d lastTimestamp : Nat) : Prop where
  one_le : 1 ≤ d
  le_65 : d ≤ 65
  last_le : lastTimestamp ≤ time

section
variable (sha256 : List UInt8 → Digest)
variable {s s' : State} {env : Env} {q : Querier} {sender : Addr} {r : Response}
variable {h₀ height : Nat}

theorem MiningPower.mono {powers : List (String × Nat)} {total lastBlock height' : Nat}
    (hM : MiningPower h₀ height powers total lastBlock) (hle : height ≤ height') :
    MiningPower h₀ height' powers total lastBlock :=
  ⟨hM.keys_nodup, hM.total_eq_sum, hM.total_add, hM.last_le.trans hle⟩

theorem MiningPower.power_le {powers : List (String × Nat)} {total lastBlock : Nat}
    (hM : MiningPower h₀ height powers total lastBlock) (v : String) :
    ((Store.load Prod.fst powers v).map (·.2)).getD 0 ≤ total := by
  cases hx : Store.load Prod.fst powers v with
  | none => exact Nat.zero_le _
  | some x =>
    rw [hM.total_eq_sum]
    exact List.le_sum_of_mem (List.mem_map_of_mem _ ((Store.load_eq_some hM.keys_nodup).mp hx).1)

theorem MiningPower.submitProof {nonce : Nat} {va : String}
    (hM : MiningPower h₀ height s.validatorMiningPowers s.totalMiningPower s.minerLastMinedBlock)
    (h : submitProof sha256 s env q sender nonce va = .ok (s', r)) :
    MiningPower h₀ env.height s'.validatorMiningPowers s'.totalMiningPower s'.minerLastMinedBlock := by
  obtain ⟨v, s₁, -, -, hle, h₁, -, -, rfl, -⟩ := submitProof_ok sha256 h
  rw [(updateDifficulty_ok h₁).2.1]
  have hsum := Store.sum_save (·.2) hM.keys_nodup
    (v := (v, s.miningPower v + (env.height - s.minerLastMinedBlock)))
  have htot := hM.total_add
  refine ⟨Store.nodup_save hM.keys_nodup, ?_, ?_, le_rfl⟩
  · simp only [State.miningPower] at hsum ⊢
    rw [hM.total_eq_sum] at htot ⊢
    omega
  · dsimp only
    omega

theorem miningPower_submitProof {nonce : Nat} {va : String}
    (hnd : (s.validatorMiningPowers.map Prod.fst).Nodup)
    (h : submitProof sha256 s env q sender nonce va = .ok (s', r)) (w : String) :
    s.miningPower w ≤ s'.miningPower w := by
  obtain ⟨v, s₁, -, -, -, h₁, -, -, rfl, -⟩ := submitProof_ok sha256 h
  rw [(updateDifficulty_ok h₁).2.1]
  simp only [State.miningPower, Store.load_save hnd]
  split
  · rename_i hv
    subst hv
    exact Nat.le_add_right _ _
  · exact le_rfl

theorem MiningPower.execute {op : Operation} {env' : Env}
    (hM : MiningPower h₀ env.height s.validatorMiningPowers s.totalMiningPower s.minerLastMinedBlock)
    (hle : env.height ≤ env'.height) (h : execute sha256 s env' q sender op = .ok (s', r)) :
    MiningPower h₀ env'.height s'.validatorMiningPowers s'.totalMiningPower
      s'.minerLastMinedBlock := by
  have hw := (execute_writes sha256 h).1
  cases op
  case submitProof => exact hM.submitProof sha256 h
  all_goals simp only [Operation.Writes] at hw; rw [hw]; exact hM.mono hle

theorem miningPower_execute {op : Operation} (hnd : (s.validatorMiningPowers.map Prod.fst).Nodup)
    (h : execute sha256 s env q sender op = .ok (s', r)) (w : String) :
    s.miningPower w ≤ s'.miningPower w := by
  have hw := (execute_writes sha256 h).1
  cases op
  case submitProof => exact miningPower_submitProof sha256 hnd h w
  all_goals simp only [Operation.Writes] at hw; rw [hw]; exact le_rfl

theorem difficulty_execute {op : Operation} (h : execute sha256 s env q sender op = .ok (s', r)) :
    1 < s.minerDifficulty ∧ s'.minerDifficulty + 1 = s.minerDifficulty ∨ s'.minerDifficulty = s.minerDifficulty ∨
      s'.minerDifficulty = s.minerDifficulty + 1 ∧ ∃ nonce va, op = .submitProof nonce va ∧
        startsWith (computeMinerProof sha256 s.minerEntropy sender nonce)
          (createDifficultyPrefix s.minerDifficulty) = true ∧
        env.time - s.minerLastMinedTimestamp < targetMiningDurationFloorSeconds := by
  have hw := (execute_writes sha256 h).1
  cases op
  case updateEntropy =>
    rcases (updateDifficulty_ok (updateEntropy_ok sha256 h).1).2.2 with hd | ⟨hf, -⟩ | hd
    · exact .inl hd
    · cases hf
    · exact .inr (.inl hd)
  case submitProof nonce va =>
    obtain ⟨v, s₁, -, hpre, -, h₁, -, -, rfl, -⟩ := submitProof_ok sha256 h
    rcases (updateDifficulty_ok h₁).2.2 with hd | ⟨-, ht, hd⟩ | hd
    · exact .inl hd
    · exact .inr (.inr ⟨hd, nonce, va, rfl, hpre, ht⟩)
    · exact .inr (.inl hd)
  all_goals simp only [Operation.Writes] at hw; rw [hw]; exact .inr (.inl rfl)

theorem lastMinedTimestamp_execute {op : Operation}
    (h : execute sha256 s env q sender op = .ok (s', r)) :
    s'.minerLastMinedTimestamp = s.minerLastMinedTimestamp ∨
      s'.minerLastMinedTimestamp = env.time := by
  have hw := (execute_writes sha256 h).1
  cases op
  case submitProof => obtain ⟨-, -, -, -, -, -, -, -, rfl, -⟩ := submitProof_ok sha256 h; exact .inr rfl
  all_goals simp only [Operation.Writes] at hw; rw [hw]; exact .inl rfl

theorem Difficulty.execute {op : Operation} {env' : Env}
    (hD : Difficulty env.time s.minerDifficulty s.minerLastMinedTimestamp)
    (hle : env.time ≤ env'.time) (h : execute sha256 s env' q sender op = .ok (s', r)) :
    Difficulty env'.time s'.minerDifficulty s'.minerLastMinedTimestamp := by
  have ⟨hone, h65, hlast⟩ := hD
  refine ⟨?_, ?_, ?_⟩
  · rcases difficulty_execute sha256 h with ⟨hgt, hd⟩ | hd | ⟨hd, -⟩ <;> omega
  · rcases difficulty_execute sha256 h with ⟨-, hd⟩ | hd | ⟨hd, nonce, va, -, hpre, -⟩
    · omega
    · omega
    · have := le_length_of_startsWith hpre
      rw [length_computeMinerProof] at this
      omega
  · rcases lastMinedTimestamp_execute sha256 h with ht | ht <;> omega

theorem MiningPower.instantiate {msg : InstantiateMsg} (h : instantiate env msg = .ok s) :
    MiningPower env.height env.height s.validatorMiningPowers s.totalMiningPower
      s.minerLastMinedBlock := by
  obtain ⟨-, -, -, -, -, -, -, -, -, -, -, hlb, htot, hpow⟩ := instantiate_eq_ok h
  rw [hpow, htot, hlb]
  exact ⟨List.nodup_nil, rfl, Nat.zero_add _, le_rfl⟩

theorem Difficulty.instantiate {msg : InstantiateMsg} (h : instantiate env msg = .ok s) :
    Difficulty env.time s.minerDifficulty s.minerLastMinedTimestamp := by
  obtain ⟨-, -, -, -, -, -, -, -, -, hd, hts, -⟩ := instantiate_eq_ok h
  rw [hd, hts]
  exact ⟨le_rfl, by decide, le_rfl⟩

section Run
variable {allowed : Operation → Prop} {msg : InstantiateMsg} {env₀ : Env}

theorem MiningPower.reachable {p : Env × State} (hp : Reachable sha256 allowed msg env₀ p) :
    MiningPower env₀.height p.1.height p.2.validatorMiningPowers p.2.totalMiningPower
      p.2.minerLastMinedBlock :=
  Reachable.induction sha256 (P := fun p => MiningPower env₀.height p.1.height
      p.2.validatorMiningPowers p.2.totalMiningPower p.2.minerLastMinedBlock)
    (fun _ h => MiningPower.instantiate h)
    (fun _ _ _ _ _ hM hst => by
      cases hst with | call _ _ _ _ _ hh _ h => exact hM.execute sha256 hh h) hp

theorem Difficulty.reachable {p : Env × State} (hp : Reachable sha256 allowed msg env₀ p) :
    Difficulty p.1.time p.2.minerDifficulty p.2.minerLastMinedTimestamp :=
  Reachable.induction sha256 (P := fun p =>
      Difficulty p.1.time p.2.minerDifficulty p.2.minerLastMinedTimestamp)
    (fun _ h => Difficulty.instantiate h)
    (fun _ _ _ _ _ hD hst => by
      cases hst with | call _ _ _ _ ht _ _ h => exact hD.execute sha256 ht h) hp

/-- In every reachable state the total mining power is the sum of the validators' powers and the
number of blocks from instantiation to the last accepted proof; no call lowers a validator's
power; and the next accepted proof, at any later height, neither underflows its block count nor
overflows the powers while heights stay below `2 ^ 64`. -/
theorem mining_power_tracks_height {env : Env}
    (hp : Reachable sha256 (fun _ => True) msg env₀ (env, s)) :
    s.totalMiningPower = (s.validatorMiningPowers.map (·.2)).sum ∧
    env₀.height ≤ s.minerLastMinedBlock ∧
    s.totalMiningPower = s.minerLastMinedBlock - env₀.height ∧
    (∀ op r env' s', Step sha256 (env, s) op r (env', s') → ∀ v, s.miningPower v ≤ s'.miningPower v) ∧
    ∀ height, env.height ≤ height →
      sub height s.minerLastMinedBlock = .ok (height - s.minerLastMinedBlock) ∧
      (height < 2 ^ 64 → ∀ v,
        checkedAdd128 (s.miningPower v) (height - s.minerLastMinedBlock) =
          .ok (s.miningPower v + (height - s.minerLastMinedBlock)) ∧
        checkedAdd128 s.totalMiningPower (height - s.minerLastMinedBlock) =
          .ok (s.totalMiningPower + (height - s.minerLastMinedBlock))) := by
  have hM : MiningPower env₀.height env.height s.validatorMiningPowers s.totalMiningPower
      s.minerLastMinedBlock := MiningPower.reachable sha256 hp
  have htot := hM.total_add
  have hlast := hM.last_le
  refine ⟨hM.total_eq_sum, by omega, by omega, fun op r env' s' hst v => ?_,
    fun height hh => ⟨sub_eq_ok.mpr ⟨hlast.trans hh, rfl⟩, fun h64 v => ?_⟩⟩
  · cases hst with
    | call _ _ _ _ _ _ _ h => exact miningPower_execute sha256 hM.keys_nodup h v
  · have hv : s.miningPower v ≤ s.totalMiningPower := hM.power_le v
    exact ⟨checkedAdd128_eq_ok.mpr ⟨by omega, rfl⟩, checkedAdd128_eq_ok.mpr ⟨by omega, rfl⟩⟩

/-- In every reachable state the difficulty is between 1 and 65; a call moves it by at most one,
and raises it only on the caller's accepted proof, 64 digits long, that meets it and comes within
the floor of the last one; and `update_difficulty`, at any later time, cannot fail. -/
theorem difficulty_bounded {env : Env} (hp : Reachable sha256 (fun _ => True) msg env₀ (env, s)) :
    1 ≤ s.minerDifficulty ∧ s.minerDifficulty ≤ 65 ∧
    (∀ env' q sender op s' r, execute sha256 s env' q sender op = .ok (s', r) →
      s'.minerDifficulty ≤ s.minerDifficulty + 1 ∧ s.minerDifficulty ≤ s'.minerDifficulty + 1 ∧
      (s.minerDifficulty < s'.minerDifficulty → ∃ nonce va, op = .submitProof nonce va ∧
        (computeMinerProof sha256 s.minerEntropy sender nonce).length = 64 ∧
        startsWith (computeMinerProof sha256 s.minerEntropy sender nonce)
          (createDifficultyPrefix s.minerDifficulty) = true ∧
        env'.time - s.minerLastMinedTimestamp < targetMiningDurationFloorSeconds)) ∧
    (∀ t, env.time ≤ t → ∀ b, ∃ s', updateDifficulty s t b = .ok s') ∧
    ∀ env' e, env.time ≤ env'.time → ∃ s' r, updateEntropy sha256 s env' e = .ok (s', r) := by
  have hD : Difficulty env.time s.minerDifficulty s.minerLastMinedTimestamp :=
    Difficulty.reachable sha256 hp
  obtain ⟨hone, h65, hlast⟩ := hD
  refine ⟨hone, h65, fun env' q sender op s' r h => ?_,
    fun t ht b => updateDifficulty_of_le (hlast.trans ht) (by omega), fun env' e ht => ?_⟩
  · rcases difficulty_execute sha256 h with ⟨-, hd⟩ | hd | ⟨hd, nonce, va, hop, hpre, hdur⟩
    · exact ⟨by omega, by omega, fun hlt => absurd hlt (by omega)⟩
    · exact ⟨by omega, by omega, fun hlt => absurd hlt (by omega)⟩
    · exact ⟨by omega, by omega, fun _ =>
        ⟨nonce, va, hop, length_computeMinerProof sha256 _ _ _, hpre, hdur⟩⟩
  · obtain ⟨s', hs'⟩ := updateDifficulty_of_le (t := env'.time) (p := false)
      (s := { s with
        minerEntropyDraft := hexEncode (sha256 (utf8 s.minerEntropyDraft ++ utf8 e)).bytes })
      (hlast.trans ht) (by dsimp only; omega)
    exact ⟨s', {}, by rw [updateEntropy, hs']; rfl⟩

end Run

def minerQuerier : Querier := { sampleQuerier with validator := fun _ => some "v1" }

def minerCalls : List Call :=
  [⟨⟨1010, 150, "hub"⟩, minerQuerier, "miner", .submitProof 0 "valoper"⟩]

theorem mining_power_tracks_height_sample : ∃ s,
    Reachable zeroDigest (fun _ => True) sampleMsg sampleEnv (⟨1010, 150, "hub"⟩, s) ∧
    s.miningPower "v1" = 50 ∧ s.totalMiningPower = s.minerLastMinedBlock - sampleEnv.height := by
  have hp : Reachable zeroDigest (fun _ => True) sampleMsg sampleEnv (⟨1010, 150, "hub"⟩, _) :=
    reachable_of_runCalls zeroDigest minerCalls rfl rfl
  exact ⟨_, hp, by decide, (mining_power_tracks_height zeroDigest hp).2.2.1⟩

theorem difficulty_bounded_sample : ∃ s s' r,
    Reachable zeroDigest (fun _ => True) sampleMsg sampleEnv (sampleEnv, s) ∧
    execute zeroDigest s ⟨1010, 150, "hub"⟩ minerQuerier "miner" (.submitProof 0 "valoper") =
      .ok (s', r) ∧
    1 ≤ s.minerDifficulty ∧ s.minerDifficulty < s'.minerDifficulty ∧
    s'.minerDifficulty ≤ s.minerDifficulty + 1 ∧
    (computeMinerProof zeroDigest s.minerEntropy "miner" 0).length = 64 ∧
    startsWith (computeMinerProof zeroDigest s.minerEntropy "miner" 0)
      (createDifficultyPrefix s.minerDifficulty) = true := by
  obtain ⟨s, hp, s', r, h, hlt⟩ : ∃ s,
      Reachable zeroDigest (fun _ => True) sampleMsg sampleEnv (sampleEnv, s) ∧ ∃ s' r,
        execute zeroDigest s ⟨1010, 150, "hub"⟩ minerQuerier "miner" (.submitProof 0 "valoper") =
          .ok (s', r) ∧ s.minerDifficulty < s'.minerDifficulty :=
    ⟨_, Reachable.instantiate zeroDigest rfl, _, _, rfl, by decide⟩
  obtain ⟨hone, -, hstep, -⟩ := difficulty_bounded zeroDigest hp
  obtain ⟨hup, -, hraise⟩ := hstep _ _ _ _ _ _ h
  obtain ⟨_, _, hop, hlen, hpre, -⟩ := hraise hlt
  cases hop
  exact ⟨s, s', r, hp, h, hone, hlt, hup, hlen, hpre⟩

end

end LiquidStaking.Hub
