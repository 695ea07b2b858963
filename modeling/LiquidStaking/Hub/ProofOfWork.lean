import LiquidStaking.Hub.Mining

/-! The proof-of-work test of `submit_proof` as a bound on the digest. A proof is the lower-case
hex of a SHA-256 digest, two digits per byte with the high half first, so its first `d` digits
are `'0'` exactly when the digest, read as a 256-bit big-endian number, is below
`2 ^ (256 - 4 * d)`; no proof has more than 64 digits. -/

namespace LiquidStaking.Hub

def ofDigitsBE (base : Nat) : List Nat → Nat
  | [] => 0
  | x :: xs => x * base ^ xs.length + ofDigitsBE base xs

def nibbles (bs : List UInt8) : List Nat := bs.flatMap fun b => [b.toNat / 16, b.toNat % 16]

theorem nibbles_cons (b : UInt8) (bs : List UInt8) :
    nibbles (b :: bs) = b.toNat / 16 :: b.toNat % 16 :: nibbles bs := rfl

theorem length_nibbles (bs : List UInt8) : (nibbles bs).length = 2 * bs.length := by
  induction bs with
  | nil => rfl
  | cons b bs ih =>
    rw [nibbles_cons, List.length_cons, List.length_cons, ih, List.length_cons]
    omega

theorem lt_of_mem_nibbles {bs : List UInt8} {x : Nat} (hx : x ∈ nibbles bs) : x < 16 := by
  obtain ⟨b, -, hb⟩ := List.mem_flatMap.mp hx
  have := b.toNat_lt
  rcases List.mem_pair.mp hb with rfl | rfl <;> omega

theorem toList_hexEncode (bs : List UInt8) :
    (hexEncode bs).toList = (nibbles bs).map Nat.digitChar := by
  simp [hexEncode, nibbles, List.map_flatMap]

theorem digitChar_eq_zero_iff {x : Nat} (hx : x < 16) : Nat.digitChar x = '0' ↔ x = 0 := by
  revert x
  decide

theorem ofDigitsBE_nibbles (bs : List UInt8) :
    ofDigitsBE 16 (nibbles bs) = ofDigitsBE 256 (bs.map UInt8.toNat) := by
  induction bs with
  | nil => rfl
  | cons b bs ih =>
    have hb : b.toNat = 16 * (b.toNat / 16) + b.toNat % 16 := (Nat.div_add_mod _ _).symm
    have hp : 256 ^ bs.length = 16 ^ (2 * bs.length) := by rw [pow_mul]; norm_num
    rw [nibbles_cons, ofDigitsBE, ofDigitsBE, List.map_cons, ofDigitsBE, ih, List.length_cons,
      length_nibbles, List.length_map, hp, pow_succ]
    conv_rhs => rw [hb]
    ring

theorem ofDigitsBE_lt {b : Nat} {ds : List Nat} (h : ∀ x ∈ ds, x < b) :
    ofDigitsBE b ds < b ^ ds.length := by
  induction ds with
  | nil => exact Nat.one_pos
  | cons x xs ih =>
    have hx := h x (List.mem_cons_self _ _)
    calc x * b ^ xs.length + ofDigitsBE b xs
        < x * b ^ xs.length + b ^ xs.length :=
          Nat.add_lt_add_left (ih fun y hy => h y (List.mem_cons_of_mem _ hy)) _
      _ = (x + 1) * b ^ xs.length := by ring
      _ ≤ b * b ^ xs.length := Nat.mul_le_mul_right _ hx
      _ = b ^ (x :: xs).length := by rw [List.length_cons, pow_succ, Nat.mul_comm]

theorem replicate_prefix_iff {b : Nat} (hb : 0 < b) {ds : List Nat} (h : ∀ x ∈ ds, x < b)
    (d : Nat) :
    List.replicate d 0 <+: ds ↔ d ≤ ds.length ∧ ofDigitsBE b ds < b ^ (ds.length - d) := by
  induction ds generalizing d with
  | nil => cases d <;> simp [ofDigitsBE]
  | cons x xs ih =>
    cases d with
    | zero => simpa using ofDigitsBE_lt h
    | succ k =>
      rw [List.replicate_succ, List.cons_prefix_cons,
        ih (fun y hy => h y (List.mem_cons_of_mem _ hy)) k, List.length_cons, ofDigitsBE,
        Nat.add_sub_add_right]
      rcases Nat.eq_zero_or_pos x with rfl | hx
      · simp
      · have : b ^ (xs.length - k) ≤ x * b ^ xs.length :=
          calc b ^ (xs.length - k) ≤ b ^ xs.length := Nat.pow_le_pow_right hb (Nat.sub_le _ _)
            _ ≤ x * b ^ xs.length := Nat.le_mul_of_pos_left _ hx
        simp only [hx.ne, false_and, false_iff, not_and, not_lt]
        omega

theorem replicate_prefix_map {f : Nat → Char} {c : Char} {ds : List Nat}
    (hf : ∀ x ∈ ds, f x = c ↔ x = 0) (d : Nat) :
    List.replicate d c <+: ds.map f ↔ List.replicate d 0 <+: ds := by
  induction ds generalizing d with
  | nil => cases d <;> simp
  | cons x xs ih =>
    cases d with
    | zero => simp
    | succ k =>
      rw [List.replicate_succ, List.replicate_succ, List.map_cons, List.cons_prefix_cons,
        List.cons_prefix_cons, ih (fun y hy => hf y (List.mem_cons_of_mem _ hy)) k, eq_comm,
        hf x (List.mem_cons_self _ _), eq_comm (a := 0)]

theorem sixteen_pow_sub (d : Nat) : 16 ^ (64 - d) = 2 ^ (256 - 4 * d) := by
  rw [show 256 - 4 * d = 4 * (64 - d) by omega, pow_mul]
  norm_num

theorem startsWith_createDifficultyPrefix_iff (digest : Digest) (d : Nat) :
    startsWith (hexEncode digest.bytes) (createDifficultyPrefix d) = true ↔
      d ≤ 64 ∧ ofDigitsBE 256 (digest.bytes.map UInt8.toNat) < 2 ^ (256 - 4 * d) := by
  have hlt : ∀ x ∈ nibbles digest.bytes, x < 16 := fun _ hx => lt_of_mem_nibbles hx
  rw [startsWith, List.isPrefixOf_iff_prefix, toList_hexEncode,
    show (createDifficultyPrefix d).toList = List.replicate d '0' from rfl,
    replicate_prefix_map fun x hx => digitChar_eq_zero_iff (hlt x hx),
    replicate_prefix_iff (by norm_num) hlt, length_nibbles, digest.length_bytes,
    ofDigitsBE_nibbles, sixteen_pow_sub]

/-- The test of `submit_proof`, that the proof starts with `create_difficulty_prefix`, which is
`difficulty` zeros, passes exactly when the difficulty is at most the 64 digits of a proof and
the SHA-256 digest of entropy, address and nonce, read as a 256-bit big-endian number, is below
`2 ^ (256 - 4 * difficulty)`. -/
theorem proof_meets_difficulty_iff (sha256 : List UInt8 → Digest)
    (minerEntropy minerAddress : String) (nonce difficulty : Nat) :
    (createDifficultyPrefix difficulty).toList = List.replicate difficulty '0' ∧
    (startsWith (computeMinerProof sha256 minerEntropy minerAddress nonce)
        (createDifficultyPrefix difficulty) = true ↔
      difficulty ≤ 64 ∧
        ofDigitsBE 256 ((sha256 (utf8 minerEntropy ++ utf8 minerAddress ++ leBytes nonce)).bytes.map
          UInt8.toNat) < 2 ^ (256 - 4 * difficulty)) :=
  ⟨rfl, startsWith_createDifficultyPrefix_iff _ difficulty⟩

theorem submitProof_digest_lt (sha256 : List UInt8 → Digest) {s s' : State} {env : Env}
    {q : Querier} {sender : Addr} {r : Response} {nonce : Nat} {va : String}
    (h : submitProof sha256 s env q sender nonce va = .ok (s', r)) :
    s.minerDifficulty ≤ 64 ∧
      ofDigitsBE 256 ((sha256 (utf8 s.minerEntropy ++ utf8 sender ++ leBytes nonce)).bytes.map
        UInt8.toNat) < 2 ^ (256 - 4 * s.minerDifficulty) := by
  obtain ⟨-, -, -, hp, -⟩ := submitProof_ok sha256 h
  exact (startsWith_createDifficultyPrefix_iff _ _).mp hp

end LiquidStaking.Hub
