import Snapchain.Spec.Store

/-!
# The engines the proposers drive

`ShardEngine` and `BlockEngine` (`storage/store/engine`) are not in the sources. The
proposers are modelled over any engine with the operations they call: an engine is a
state `ε` (or `β`) and those operations on it.

`ShardEngine.ofStore` is the shard engine as the spec describes it, over the shard
store of `shard.rs`: a commit persists the chunk at its height, and the confirmed height
is the store's largest block number. `BlockEngine.ofBlocks` is the block engine as the
spec describes it, over the blocks it committed: `get_last_block` returns the last.
-/

namespace Snapchain

/-- The operations of `ShardEngine` the shard proposer calls. -/
structure ShardEngine (ε : Type) where
  proposeStateChange : ε → UInt32 → ShardStateChange × ε
  validateStateChange : ε → ShardStateChange → Bool
  commitShardChunk : ε → ShardChunk → ε
  getConfirmedHeight : ε → Height

/-- The operations of `BlockEngine` the block proposer calls. -/
structure BlockEngine (β : Type) where
  commitBlock : β → Block → β
  getLastBlock : β → Option Block
  getConfirmedHeight : β → Height

/-- The state of a shard engine over a shard store: the store and the transactions
waiting to be proposed. -/
structure StoreEngine (ν : Type) where
  store : ShardStore ν
  mempool : List Transaction

variable {ν : Type}

/-- Modelled from the spec: the shard engine over the shard store. `propose_state_change`
drains the mempool and computes the state root of its transactions against the
committed state; `validate_state_change` recomputes that root; `commit_shard_chunk`
persists the chunk at its height; `get_confirmed_height` is the largest persisted block
number, 0 at genesis. How transactions give a state root (`stateRoot`) is outside the
pipeline. The spec's stop of the node on a failed write or on a conflicting chunk at a
decided height is left out: a failed put leaves the store as it was, and a conflicting
chunk replaces the one stored. -/
def ShardEngine.ofStore (E : StoreEnv ν) (shardId : UInt32)
    (stateRoot : ShardStore ν → List Transaction → Bytes) : ShardEngine (StoreEngine ν) where
  proposeStateChange e id :=
    (⟨id, stateRoot e.store e.mempool, e.mempool⟩, { e with mempool := [] })
  validateStateChange e sc := stateRoot e.store sc.transactions == sc.newStateRoot
  commitShardChunk e c :=
    match e.store.putShardChunk E c with
    | .ok store => { e with store }
    | .error _ => e
  getConfirmedHeight e :=
    ⟨shardId, match e.store.maxBlockNumber E with
      | .ok n => n
      | .error _ => 0⟩

/-- Modelled from the spec: the block engine over the blocks it committed, in order.
`commit_block` persists the block; `get_last_block` returns the block committed last,
for `parent_hash` chaining; `get_confirmed_height` is the largest block number among the
committed blocks' heights, 0 at genesis. The spec's idempotence on a block committed
twice and its stop of the node on a conflicting block are left out: every commit is
appended. -/
def BlockEngine.ofBlocks : BlockEngine (List Block) where
  commitBlock bs b := bs ++ [b]
  getLastBlock bs := bs.getLast?
  getConfirmedHeight bs :=
    ⟨0, (bs.filterMap fun b => (b.header.bind (·.height)).map (·.blockNumber)).foldl max 0⟩

end Snapchain
