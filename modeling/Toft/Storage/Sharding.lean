import Toft.Base.Fault
import Toft.Storage.SSTable.Types

/-!
# Sharding policies

A policy maps each key to one of `shard_num_` shards.
-/

namespace Toft

open Lib

/-- The classes registered with `TOFT_REGISTER_SHARDING_POLICY`. -/
inductive ShardingPolicyClass where
  | fingerprintSharding
  deriving DecidableEq, Repr

/-- A policy, and the number of its shards. -/
structure ShardingPolicy where
  policyClass : ShardingPolicyClass
  shardNum : Int := 1
  deriving DecidableEq, Repr

namespace ShardingPolicy

def create (name : Bytes) : Option ShardingPolicy :=
  if name = ascii "FingerprintSharding" then some { policyClass := .fingerprintSharding } else none

def setShardingNumber (p : ShardingPolicy) (shardNum : Int) : ShardingPolicy :=
  { p with shardNum := shardNum }

/-- `Shard`. The operands of `%` are converted to `uint64_t`. -/
def shard [SSTableEnv] (p : ShardingPolicy) (key : Bytes) : Except Fault Int :=
  match p.policyClass with
  | .fingerprintSharding =>
    if p.shardNum = 0 then .error .divideByZero
    else .ok (int32 ((SSTableEnv.fingerprint64 key).toNat % uint64 p.shardNum : Nat))

def shardOf [SSTableEnv] (n : Nat) (key : Bytes) : Nat := (SSTableEnv.fingerprint64 key).toNat % n

theorem shard_eq [SSTableEnv] {n : Nat} (hpos : 0 < n) (hn : n < 2 ^ 31)
    (c : ShardingPolicyClass) (key : Bytes) : shard ⟨c, n⟩ key = .ok (shardOf n key : Int) := by
  have hlt := Nat.mod_lt (SSTableEnv.fingerprint64 key).toNat hpos
  cases c
  simp only [shard, shardOf]
  rw [if_neg (by omega), uint64_of_lt (by omega), int32_of_lt (by omega)]

end ShardingPolicy

end Toft
