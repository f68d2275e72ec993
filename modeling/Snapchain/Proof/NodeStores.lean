import Snapchain.Proof.Node
import Snapchain.Proof.StoreEngine

/-!
# The shard stores of a node

When each shard of a node runs over the shard engine over its own store, what the shard
task has committed is in its store and nothing else is, in every interleaving of the
node's tasks: the send of a decided chunk on the channel does not touch the store, its
resumption commits it (`ShardTask.store_step`), and a node step moves only the task of
its shard (`shard_run_of_create`).

* `node_shard_confirmed_heights`: in every run of a node from `SnapchainNode::create`
  whose shards start on empty stores, each shard's store holds exactly the last chunk
  committed at each block number it committed, and its `get_confirmed_height` is the
  largest block number it committed, 0 before any: a decided chunk sent on the channel
  and not yet committed does not count.
* `block_receives_uncommitted_chunk`: a run of a node from `create` in which the block
  task takes a decided chunk off the channel, and proposes a block of it, before the
  shard task has resumed from the send and committed it.
-/

namespace Snapchain

open BlockProposer (chunkBlockNumber)

variable {ν β : Type} {E : StoreEnv ν} {stateRoot : ShardStore ν → List Transaction → Bytes}
  {H : Hasher}

namespace ShardTask

variable {shardId : UInt32} {t t' : ShardTask (StoreEngine ν)}

/-- **One step of a shard task**: its store afterwards is its store before after the puts
of the chunks the step committed; sending a decided chunk commits nothing. -/
theorem store_step {e : Event} {o : List ShardProposer.Output}
    (h : t.step H (ShardEngine.ofStore E shardId stateRoot) e = .ok (t', o)) :
    t'.proposer.engine.store =
      t.proposer.engine.store.putShardChunks E (ShardProposer.committedChunks o) := by
  rcases step_cases h with ⟨rfl, rfl⟩ | ⟨-, -, -, chunk, -, -, -, rfl, rfl⟩ |
    ⟨c, s, -, -, -, hs, rfl⟩ | ⟨-, value, chunk, -, -, rfl, rfl⟩
  · rfl
  · have hc : ShardProposer.committedChunks
        ((t.proposer.publishNewShardChunk chunk).map .published) = [] := by
      simp [ShardProposer.committedChunks, List.filterMap_map, Function.comp_def]
    rw [hc]
    rfl
  · simpa using ((ShardProposer.Appends.refl _).step hs).engine.store
  · exact congrArg StoreEngine.store
      (@ofStore_commitShardChunk ν E shardId stateRoot t.proposer.engine chunk)

theorem store_run {es : List Event} {os : List ShardProposer.Output}
    (h : t.run H (ShardEngine.ofStore E shardId stateRoot) es = .ok (t', os)) :
    t'.proposer.engine.store =
      t.proposer.engine.store.putShardChunks E (ShardProposer.committedChunks os) :=
  runSteps_trace_nil (Q := fun t₁ os₁ => t₁.proposer.engine.store =
      t.proposer.engine.store.putShardChunks E (ShardProposer.committedChunks os₁))
    (fun _ _ _ _ _ hq hs => by
      dsimp only at hq ⊢
      rw [store_step hs, hq, ShardProposer.committedChunks_append,
        ShardStore.putShardChunks_append])
    rfl h

end ShardTask

namespace Node

/-- **Each shard's store holds what that shard committed.** In every run of a node from
`SnapchainNode::create` whose shards run over the shard engine over their own stores,
started empty (any interleaving of the shard tasks and the block task, any calls and
peers), when decoding undoes encoding, the store of every shard that has a task holds
exactly the bindings of the map of the chunks that shard committed (the commits the
node's outputs tag with its id), and its `get_confirmed_height` is the largest block
number among them, 0 before any commit. -/
theorem node_shard_confirmed_heights (hE : ∀ c, E.decode (E.encode c) = some c)
    {B : BlockEngine β} {address : Bytes} {shardIds : List UInt32} {numShards : UInt32}
    {mempool : UInt32 → List Transaction} {blockEngine : β}
    {w w' : Node (StoreEngine ν) β} {es : List Event} {os : List Output}
    (hw : create address shardIds numShards (fun i => ⟨ShardStore.empty, mempool i⟩)
      blockEngine = .ok w)
    (h : w.run H (fun i => ShardEngine.ofStore E i stateRoot) B es = .ok (w', os))
    {i : UInt32} {t : ShardTask (StoreEngine ν)} (ht : w'.shards.get i = some t) :
    t.proposer.engine.store.db.entries = (ChunkMap.empty.putAll
        (ShardProposer.committedChunks (shardOutputs i os))).entries.map (encodeEntry E) ∧
      ∃ n, t.proposer.getConfirmedHeight (ShardEngine.ofStore E i stateRoot) = ⟨i, n⟩ ∧
        (∀ c ∈ ShardProposer.committedChunks (shardOutputs i os), ∀ k,
          chunkBlockNumber c = some k → k ≤ n) ∧
        (n = 0 ∨ ∃ c ∈ ShardProposer.committedChunks (shardOutputs i os),
          chunkBlockNumber c = some n) := by
  have hd : Denotes E t.proposer.engine.store.db
      (ChunkMap.empty.putAll (ShardProposer.committedChunks (shardOutputs i os))) := by
    rw [ShardTask.store_run (shard_run_of_create hw h ht).2]
    exact putShardChunks_denotes _ rfl
  exact ⟨hd, confirmedHeight_of_denotes hE hd⟩

/-- Two shards over empty stores of `StoreEnv.plain`, as `create` starts them. -/
def storeNode : Node (StoreEngine ShardChunk) Unit :=
  ⟨(BTreeMap.new.insert 1 (ShardTask.new [] 1 ⟨ShardStore.empty, []⟩)).insert 2
      (ShardTask.new [] 2 ⟨ShardStore.empty, []⟩), [],
    ⟨BlockProposer.new [] 0 2 (), .idle⟩⟩

theorem node_shard_confirmed_heights_two_shards :
    (∀ c, StoreEnv.plain.decode (StoreEnv.plain.encode c) = some c) ∧
    create [] [1, 2] 2 (fun _ => ⟨ShardStore.empty, []⟩) () = .ok storeNode ∧
    ∃ w' os t, storeNode.run Hasher.zero (fun i => ShardEngine.ofStore StoreEnv.plain i fun _ _ => [])
        BlockEngine.unit twoShardEvents = .ok (w', os) ∧ w'.shards.get 1 = some t ∧
      t.proposer.engine.store.db.entries = (ChunkMap.empty.putAll
          (ShardProposer.committedChunks (shardOutputs 1 os))).entries.map
            (encodeEntry StoreEnv.plain) ∧
        ∃ n, t.proposer.getConfirmedHeight
            (ShardEngine.ofStore StoreEnv.plain 1 fun _ _ => []) = ⟨1, n⟩ ∧
          (∀ c ∈ ShardProposer.committedChunks (shardOutputs 1 os), ∀ k,
            chunkBlockNumber c = some k → k ≤ n) ∧
          (n = 0 ∨ ∃ c ∈ ShardProposer.committedChunks (shardOutputs 1 os),
            chunkBlockNumber c = some n) := by
  have hw : create [] [1, 2] 2 (fun _ => ⟨ShardStore.empty, []⟩) () = .ok storeNode := rfl
  obtain ⟨w', os, h⟩ : ∃ w' os, storeNode.run Hasher.zero
      (fun i => ShardEngine.ofStore StoreEnv.plain i fun _ _ => []) BlockEngine.unit
      twoShardEvents = .ok (w', os) := ⟨_, _, rfl⟩
  obtain ⟨t, ht⟩ : ∃ t, w'.shards.get 1 = some t := by
    have hm : (storeNode.run Hasher.zero (fun i => ShardEngine.ofStore StoreEnv.plain i fun _ _ => [])
        BlockEngine.unit twoShardEvents).map (fun r => (r.1.shards.get 1).isSome) = .ok true := by
      decide
    rw [h] at hm
    exact Option.isSome_iff_exists.1 (by simpa [Except.map] using hm)
  exact ⟨fun _ => rfl, hw, w', os, t, h, ht,
    node_shard_confirmed_heights (fun _ => rfl) hw h ht⟩

/-! ## The race on the channel -/

/-- The engine of every shard in the run below: over the shard store of `StoreEnv.plain`,
every state root empty. -/
def plainEngines : UInt32 → ShardEngine (StoreEngine ShardChunk) :=
  fun i => ShardEngine.ofStore StoreEnv.plain i fun _ _ => []

/-- The node `create` starts for shard 1 over an empty store, with the block proposer for
one shard. -/
def oneShardNode : Node (StoreEngine ShardChunk) Unit :=
  ⟨BTreeMap.new.insert 1 (ShardTask.new [] 1 ⟨ShardStore.empty, []⟩), [],
    ⟨BlockProposer.new [] 0 1 (), .idle⟩⟩

/-- Shard 1 proposes a chunk at block 1 and decides it, which sends the chunk on the
channel and stops at the await; the block task collects block 1 for one shard. Its tick
takes the chunk and proposes a block of it, while shard 1's task has not resumed and its
engine's confirmed height is still 0. -/
theorem block_receives_uncommitted_chunk :
    create [] [1] 1 (fun _ => ⟨ShardStore.empty, []⟩) () = .ok oneShardNode ∧
    (oneShardNode.run Hasher.zero plainEngines BlockEngine.unit
        [.shard 1 (.call (.proposeValue ⟨1, 1⟩ 0 0)), .blockStep (.proposeValue ⟨0, 1⟩ 0),
         .shard 1 (.call (.decide ⟨1, 1⟩ 0 ⟨[], 1⟩)), .blockTick 0]).map
      (fun r => (BlockProposer.chunksProposed (blockOutputs r.2),
        (r.1.shards.get 1).map fun t =>
          (t.resuming.isSome, t.proposer.getConfirmedHeight (plainEngines 1)))) =
      .ok ([[chunkAt 1 1]], some (true, ⟨1, 0⟩)) :=
  ⟨rfl, by decide⟩

end Node

end Snapchain
