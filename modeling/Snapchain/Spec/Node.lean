import Snapchain.Spec.BlockProposer

/-!
# The node (`node/snapchain_node.rs`)

`SnapchainNode::create` starts a shard proposer for each configured shard and the block
proposer of shard 0. Every shard proposer gets a clone of one sender, `shard_decision_tx`,
and the block proposer gets the receiver: the decided chunks of all shards go through one
channel. Each proposer runs in its own consensus actor, and `dispatch` forwards a
consensus message to the actor of the message's shard, or drops it when there is none.

A node is the task of every shard, the channel and the block task; a run is any
interleaving of the tasks' steps. A shard's task is its proposer and the `decide` it is
finishing: `ShardProposer::decide` sends its chunk on the channel and awaits the send
before it appends and commits the chunk. Each shard has its own engine over its own store
(`ShardEngine::new(shard_id, shard_store)`, a RocksDB under `shard{id}`): `G id` is the
engine of shard `id`.

RocksDB locks the directory of a database while it is open, and the loop of `create`
keeps every shard's database open (in `shard_stores` and in the engine): a shard id
configured twice opens its directory a second time, and `db.open().unwrap()` panics.

The consensus actors themselves, their timeouts and metrics, and the block store's
heights that seed the validator sets are outside the proposers and left out.
-/

namespace Snapchain

/-- `MAX_SHARDS`. -/
def maxShards : UInt32 := 3

/-- The panics of `SnapchainNode::create` on a configured shard id: its two checks, and
the `unwrap` of opening the shard's database. -/
inductive CreatePanic where
  | reservedShardId
  | shardIdOutOfRange
  | dbOpen
  deriving DecidableEq, Repr

/-- What the panics print. -/
def CreatePanic.message : CreatePanic → String
  | .reservedShardId => "Shard ID 0 is reserved for the block shard, created automaticaly"
  | .shardIdOutOfRange => "Shard ID must be between 1 and 3"
  | .dbOpen => "called `Result::unwrap()` on an `Err` value"

/-- A data shard's task: its proposer, and the height, key and chunk of a `decide` whose
send has completed and which has not yet appended and committed. -/
structure ShardTask (ε : Type) where
  proposer : ShardProposer ε
  resuming : Option (Height × ShardHash × ShardChunk)

namespace ShardTask

variable {ε : Type} (H : Hasher) (G : ShardEngine ε)

/-- A call of the shard's consensus actor. It waits while a `decide` is finishing;
`decide` sends its chunk and stops at the await. -/
def call (t : ShardTask ε) (c : ShardProposer.Call) :
    Except Panic (ShardTask ε × List ShardProposer.Output) :=
  match t.resuming, c with
  | some _, _ => pure (t, [])
  | none, .decide height _ value => do
    match ← t.proposer.decideLookup value with
    | none => pure (t, [])
    | some chunk =>
      pure ({ t with resuming := some (height, value, chunk) },
        (t.proposer.publishNewShardChunk chunk).map .published)
  | none, c => do
    let (s, outs) ← t.proposer.step H G c
    pure ({ t with proposer := s }, outs)

/-- `decide` after the await: append the chunk, commit it, evict the proposal. -/
def resume (t : ShardTask ε) : ShardTask ε × List ShardProposer.Output :=
  match t.resuming with
  | none => (t, [])
  | some (height, value, chunk) =>
    (⟨t.proposer.decideResume G value chunk, none⟩, [.committed height chunk])

/-- A shard's task as `SnapchainNode::create` starts it: a new proposer with a sender on
the channel, and no decision in progress. -/
def new (address : Bytes) (shardId : UInt32) (engine : ε) : ShardTask ε :=
  ⟨ShardProposer.new address shardId engine true, none⟩

/-- A step of the task: a call, or the resumption of a `decide`. -/
inductive Event where
  | call (c : ShardProposer.Call)
  | resume

def step (t : ShardTask ε) : Event → Except Panic (ShardTask ε × List ShardProposer.Output)
  | .call c => t.call H G c
  | .resume => pure (t.resume G)

def run : ShardTask ε → List Event → Except Panic (ShardTask ε × List ShardProposer.Output) :=
  runSteps (step H G)

end ShardTask

/-- The tasks of a node and the channel between them. `shards` maps each data shard to its
task, as `consensus_actors` maps it to its actor. -/
structure Node (ε β : Type) where
  shards : BTreeMap UInt32 (ShardTask ε)
  channel : List ShardChunk
  block : BlockProposer.Task β

namespace Node

/-- A step of one task. A shard's steps are named by its shard id, as `dispatch` names the
actor by the message's shard. -/
inductive Event where
  | shard (shardId : UInt32) (e : ShardTask.Event)
  | blockTick (now : UInt64)
  | blockStep (e : BlockProposer.Event)

/-- What a step returns, sends or commits, with the shard it comes from. -/
inductive Output where
  | shard (shardId : UInt32) (o : ShardProposer.Output)
  | block (o : BlockProposer.Output)
  deriving DecidableEq, Repr

variable {ε β : Type} (H : Hasher) (G : UInt32 → ShardEngine ε) (B : BlockEngine β)

/-- One step; a step that cannot happen changes nothing, and so does a step of a shard
the node has no task for, as `dispatch` drops a message for a shard without an actor. A
shard's sends go at the end of the channel; the block task's tick takes the channel's
first chunk, if any. -/
def step (w : Node ε β) : Event → Except Panic (Node ε β × List Output)
  | .shard shardId e =>
    match w.shards.get shardId with
    | none => pure (w, [])
    | some t => do
      let (t', outs) ← t.step H (G shardId) e
      pure ({ w with
          shards := w.shards.insert shardId t'
          channel := w.channel ++ ShardProposer.sent outs },
        outs.map (.shard shardId))
  | .blockTick now =>
    match w.block.phase with
    | .idle => pure (w, [])
    | .collecting _ _ => do
      let (t, outs) ← w.block.step H B (.tick w.channel.head? now)
      pure ({ w with block := t, channel := w.channel.tail }, outs.map .block)
  | .blockStep e =>
    match e with
    | .tick _ _ => pure (w, [])
    | e => do
      let (t, outs) ← w.block.step H B e
      pure ({ w with block := t }, outs.map .block)

/-- The steps in order; a panic ends the run. -/
def run : Node ε β → List Event → Except Panic (Node ε β × List Output) :=
  runSteps (step H G B)

/-- One round of the loop of `SnapchainNode::create`: check the shard id, open the
shard's database, which fails when an earlier round opened it, then start the shard's
proposer over the shard's own engine. -/
def createShard (address : Bytes) (shardEngine : UInt32 → ε)
    (shards : BTreeMap UInt32 (ShardTask ε)) (shardId : UInt32) :
    Except CreatePanic (BTreeMap UInt32 (ShardTask ε)) :=
  if shardId = 0 then throw .reservedShardId
  else if shardId > maxShards then throw .shardIdOutOfRange
  else match shards.get shardId with
    | some _ => throw .dbOpen
    | none => pure (shards.insert shardId (ShardTask.new address shardId (shardEngine shardId)))

/-- `SnapchainNode::create`, its proposers: for each configured shard, in order, a shard
proposer, and then the block proposer of shard 0 for `num_shards` shards. -/
def create (address : Bytes) (shardIds : List UInt32) (numShards : UInt32)
    (shardEngine : UInt32 → ε) (blockEngine : β) : Except CreatePanic (Node ε β) := do
  let shards ← shardIds.foldlM (createShard address shardEngine) BTreeMap.new
  pure ⟨shards, [], ⟨BlockProposer.new address 0 numShards blockEngine, .idle⟩⟩

end Node

end Snapchain
