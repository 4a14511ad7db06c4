import Ledge.Core.RefName

/-!
# Ledge.Cluster.Router

Routing of ref names to shards (`router.rs`). A string is its UTF-8 bytes here: the source
splits at `/`, which is one byte, and hashes bytes.
-/

namespace Ledge.Cluster

open Ledge.Core

/-- Identifier of one shard (one independent Raft group). -/
abbrev ShardId := Nat

/-- FNV-1a 64-bit. -/
def fnv1a64 (bytes : List UInt8) : UInt64 :=
  bytes.foldl (fun h b => (h ^^^ b.toUInt64) * 0x100000001b3) 0xcbf29ce484222325

/-- The byte of `/`. -/
def slash : UInt8 := 47

/-- `namespace_key`: the part of a name that decides its shard. -/
def namespaceKey (name : List UInt8) : List UInt8 :=
  match name.splitOn slash with
  | [] => name
  | first :: segs =>
    if first ≠ strBytes "refs" then name
    else
      match segs with
      | [] => name
      | [a] => a
      | a :: b :: _ =>
        if a = strBytes "workspaces" then strBytes "workspaces/" ++ b
        else if a = strBytes "heads" ∨ a = strBytes "tags" then
          strBytes "refs/" ++ a ++ slash :: b
        else a ++ slash :: b

/-- Maps ref names to shards. -/
structure ShardRouter where
  numShards : Nat
  pos : 1 ≤ numShards

/-- `shard_for` -/
def ShardRouter.shardFor (router : ShardRouter) (name : RefName) : ShardId :=
  (fnv1a64 (namespaceKey name.bytes)).toNat % router.numShards

/-- Which shards a listing consults. -/
inductive ShardSpan
  | one (shard : ShardId)
  | all
  deriving DecidableEq

/-- `shards_for_prefix`: three segments under `refs/` pin a shard, whatever the second one is. -/
def ShardRouter.shardsForPrefix (router : ShardRouter) (search : List UInt8) : ShardSpan :=
  if router.numShards = 1 then .one 0
  else
    let trimmed := (search.reverse.dropWhile (· = slash)).reverse
    match (trimmed.splitOn slash).filter (· ≠ []) with
    | first :: _ :: _ :: _ =>
      if first = strBytes "refs" then
        .one ((fnv1a64 (namespaceKey trimmed)).toNat % router.numShards)
      else .all
    | _ => .all

end Ledge.Cluster
