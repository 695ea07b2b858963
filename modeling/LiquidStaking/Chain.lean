import LiquidStaking.Word

/-! What a contract call sees of the chain: the block (`env.block.time.seconds()`,
`env.block.height` and `env.contract.address`), the host's answers to its queries, which may
differ from call to call, and the messages it hands back. `Coin` and `Event` are those of
`cosmwasm_std`, `queryDelegations` is `query_delegations` and `totalDelegated` the
`fold(0u128, ...)` of the contracts. Undelegations and redelegations come from
`compute_undelegations` and `compute_redelegations_*`, which are not in the sources, and are left
out of the messages. The helpers of `math.rs` and `types.rs`, which are not in the sources
either, are modelled from the spec. -/

namespace LiquidStaking

structure Coin where
  denom : String
  amount : Nat
  deriving DecidableEq, Repr

structure Delegation where
  validator : String
  amount : Nat
  denom : String
  deriving DecidableEq, Repr

structure Env where
  time : Nat
  height : Nat
  contract : Addr
  deriving DecidableEq, Repr

structure Querier where
  delegation : String → Nat
  allDelegations : List String
  balance : String → Nat
  steakSupply : Nat
  validator : String → Option String

inductive CosmosMsg where
  | delegate (validator : String) (amount : Nat) (denom : String)
  | withdrawDelegatorReward (validator : String)
  | bankSend (toAddress : Addr) (amount : Nat) (denom : String)
  | feeSplitDeposit (feeAccount : Addr) (amount : Nat) (denom : String)
  | swap (offer : Coin) (askDenom : String)
  | mint (token recipient : Addr) (amount : Nat)
  | burn (token : Addr) (amount : Nat)
  | submitBatch
  | harvest
  | swapCallback
  | reinvestCallback
  deriving DecidableEq, Repr

structure Event where
  ty : String
  attributes : List (String × String)

def Event.attribute (e : Event) (key : String) : Option String :=
  (e.attributes.find? (·.1 = key)).map (·.2)

def queryDelegations (q : Querier) (validators : List String) (denom : String) :
    List Delegation :=
  validators.map fun v => ⟨v, q.delegation v, denom⟩

def totalDelegated (ds : List Delegation) : Nat := (ds.map (·.amount)).sum

namespace Coins

/-- Modelled from the spec: `Coins::find`, the unlocked amount of a denom, zero if absent. -/
def find (cs : List Coin) (denom : String) : Nat :=
  ((cs.find? (·.denom = denom)).map (·.amount)).getD 0

/-- Modelled from the spec: `Coins::add`, one atomic update of the entry of the coin's denom,
checked against overflow, or a new entry. -/
def add (cs : List Coin) (c : Coin) : Except StdError (List Coin) :=
  match cs.find? (·.denom = c.denom) with
  | some old => do
    let amount ← checkedAdd128 old.amount c.amount
    pure (cs.map fun x => if x.denom = c.denom then ⟨c.denom, amount⟩ else x)
  | none => pure (cs ++ [c])

def splitComma (cs : List Char) : List (List Char) :=
  cs.foldr (fun c parts => if c = ',' then [] :: parts else
    match parts with
    | w :: ws => (c :: w) :: ws
    | [] => [[c]]) [[]]

/-- Modelled from the spec: `Coins::from_str`, the coins of a `coin_received` event, written
`<amount><denom>` and separated by commas. -/
def fromStr (s : String) : Except StdError (List Coin) :=
  if s.isEmpty then pure [] else
  (splitComma s.toList).mapM fun c =>
    let amount := c.takeWhile Char.isDigit
    let denom := c.dropWhile Char.isDigit
    if amount.isEmpty || denom.isEmpty then .error (.genericErr s!"invalid coin: {String.mk c}")
    else pure ⟨String.mk denom, amount.foldl (fun n d => 10 * n + (d.toNat - 48)) 0⟩

def addMany (cs : List Coin) : List Coin → Except StdError (List Coin)
  | [] => pure cs
  | c :: more => do addMany (← add cs c) more

def amountOf (cs : List Coin) (denom : String) : Nat :=
  ((cs.filter (·.denom = denom)).map (·.amount)).sum

theorem amountOf_cons (c : Coin) (cs : List Coin) (denom : String) :
    amountOf (c :: cs) denom = (if c.denom = denom then c.amount else 0) + amountOf cs denom := by
  by_cases h : c.denom = denom <;> simp [amountOf, List.filter_cons, h]

theorem find_add {cs cs' : List Coin} {c : Coin} (h : add cs c = .ok cs') (denom : String) :
    find cs' denom = find cs denom + if c.denom = denom then c.amount else 0 := by
  unfold add at h
  cases hf : cs.find? (·.denom = c.denom) with
  | none =>
    rw [hf] at h
    cases h
    by_cases hd : c.denom = denom
    · subst hd
      simp [find, hf]
    · simp [find, hd]
  | some old =>
    rw [hf] at h
    obtain ⟨amount, ha, h⟩ := bind_eq_ok.mp h
    obtain ⟨-, rfl⟩ := checkedAdd128_eq_ok.mp ha
    cases h
    have hp : ((fun x : Coin => decide (x.denom = denom)) ∘
        fun x => if x.denom = c.denom then (⟨c.denom, old.amount + c.amount⟩ : Coin) else x) =
        fun x => decide (x.denom = denom) := by
      funext x
      by_cases hx : x.denom = c.denom <;> simp [hx]
    unfold find
    rw [List.find?_map, hp]
    by_cases hd : c.denom = denom
    · subst hd
      have hold : old.denom = c.denom := by simpa using List.find?_some hf
      simp [hf, hold]
    · cases hy : cs.find? (·.denom = denom) with
      | none => simp [hd]
      | some y =>
        have hyd : y.denom = denom := by simpa using List.find?_some hy
        simp [hyd, Ne.symm hd, hd]

theorem find_addMany {cs out : List Coin} {more : List Coin} (h : addMany cs more = .ok out)
    (denom : String) : find out denom = find cs denom + amountOf more denom := by
  induction more generalizing cs with
  | nil => cases h; simp [amountOf]
  | cons c more ih =>
    obtain ⟨cs₁, h₁, h⟩ := bind_eq_ok.mp h
    rw [ih h, find_add h₁, amountOf_cons, Nat.add_assoc]

theorem nodup_add {cs cs' : List Coin} {c : Coin} (hnd : (cs.map (·.denom)).Nodup)
    (h : add cs c = .ok cs') : (cs'.map (·.denom)).Nodup := by
  unfold add at h
  cases hf : cs.find? (·.denom = c.denom) with
  | none =>
    rw [hf] at h
    cases h
    rw [List.map_append, List.nodup_append]
    refine ⟨hnd, List.nodup_singleton _, fun d hd hd' => ?_⟩
    obtain ⟨x, hx, rfl⟩ := List.mem_map.mp hd
    rw [List.map_singleton, List.mem_singleton] at hd'
    exact List.find?_eq_none.mp hf x hx (by simpa using hd')
  | some old =>
    rw [hf] at h
    obtain ⟨amount, -, h⟩ := bind_eq_ok.mp h
    cases h
    rw [List.map_map]
    convert hnd using 1
    exact List.map_congr_left fun x _ => by by_cases hx : x.denom = c.denom <;> simp [hx]

theorem nodup_addMany {cs out : List Coin} {more : List Coin} (hnd : (cs.map (·.denom)).Nodup)
    (h : addMany cs more = .ok out) : (out.map (·.denom)).Nodup := by
  induction more generalizing cs with
  | nil => cases h; exact hnd
  | cons c more ih =>
    obtain ⟨cs₁, h₁, h⟩ := bind_eq_ok.mp h
    exact ih (nodup_add hnd h₁) h

theorem amountOf_eq_find {cs : List Coin} (hnd : (cs.map (·.denom)).Nodup) (denom : String) :
    amountOf cs denom = find cs denom := by
  induction cs with
  | nil => rfl
  | cons c cs ih =>
    rw [List.map_cons, List.nodup_cons] at hnd
    rw [amountOf_cons, ih hnd.2]
    by_cases hc : c.denom = denom
    · have hnone : cs.find? (·.denom = denom) = none :=
        List.find?_eq_none.mpr fun x hx hxd =>
          hnd.1 (hc ▸ (of_decide_eq_true hxd) ▸ List.mem_map_of_mem _ hx)
      simp [find, hc, hnone]
    · simp [find, hc]

end Coins

/-- Modelled from the spec: `compute_mint_amount`, the deposit at the current exchange rate,
one to one while nothing is minted. -/
def computeMintAmount (usteakSupply amount : Nat) (ds : List Delegation) :
    Except StdError Nat :=
  if usteakSupply = 0 then pure amount else multiplyRatio amount usteakSupply (totalDelegated ds)

/-- Modelled from the spec: `compute_unbond_amount`, the native value of the Steak to burn. -/
def computeUnbondAmount (usteakSupply usteakToBurn : Nat) (ds : List Delegation) :
    Except StdError Nat :=
  multiplyRatio (totalDelegated ds) usteakToBurn usteakSupply

/-- Modelled from the spec: `compute_target_delegation_from_mining_power`, the validator's
share of the bonded total by mining power, zero while no power has been mined, with a checked
multiplication. -/
def computeTargetDelegationFromMiningPower (totalBonded power totalPower : Nat) :
    Except StdError Nat :=
  if totalPower = 0 then pure 0
  else if totalBonded * power < 2 ^ 128 then pure (totalBonded * power / totalPower)
  else .error (.overflow "Mul")

end LiquidStaking
