import Snapchain.Spec.ShardProposer

/-!
# `BlockProposer` (`consensus/proposer.rs`)

The proposer of the block shard. `propose_value` first runs
`collect_confirmed_shard_chunks`: every 10 ms it tries to receive a chunk from the
fan-in channel and files it in `pending_chunks` under its block number, until the
requested block number holds `num_shards` chunks or the deadline fires. It then builds
a block of the chunks filed at the requested block number. `decide` commits the block
recorded under the decided key, publishes it, and evicts the proposal and the bucket of
the decided block number.

`collectLoop` reads the loop over the results of the ticks that come before the
deadline. `Task` is the proposer's task step by step: each tick of the loop is one step,
so that a run can interleave it with what other tasks do.
-/

namespace Snapchain

/-- `BlocksRequest`. -/
structure BlocksRequest where
  shardId : UInt32
  startBlockNumber : UInt64
  stopBlockNumber : Option UInt64
  deriving DecidableEq, Repr

/-- A peer's RPC service for blocks. -/
def BlockService := String → BlocksRequest → Except RpcError (List Block)

/-- `BlockProposer`; its channels are the steps' inputs and outputs. -/
structure BlockProposer (β : Type) where
  shardId : UInt32
  address : Bytes
  proposedBlocks : BTreeMap ShardHash FullProposal
  pendingChunks : BTreeMap UInt64 (List ShardChunk)
  numShards : UInt32
  engine : β

namespace BlockProposer

variable {β : Type} (H : Hasher) (B : BlockEngine β)

def new (address : Bytes) (shardId : UInt32) (numShards : UInt32) (engine : β) :
    BlockProposer β :=
  ⟨shardId, address, .new, .new, numShards, engine⟩

/-- A chunk from `try_recv`, filed under its block number: pushed onto the bucket when
`contains_key` finds one, in a new bucket otherwise. -/
def fileChunk (s : BlockProposer β) (chunk : ShardChunk) : Except Panic (BlockProposer β) := do
  let header ← unwrap chunk.header .header
  let chunkHeight ← unwrap header.height .height
  let chunkBlockNumber := chunkHeight.blockNumber
  pure { s with
    pendingChunks :=
      match s.pendingChunks.get chunkBlockNumber with
      | some chunks => s.pendingChunks.insert chunkBlockNumber (chunks ++ [chunk])
      | none => s.pendingChunks.insert chunkBlockNumber [chunk] }

/-- The test after each tick: `num_shards` chunks are filed at the requested number. -/
def collected (s : BlockProposer β) (requestedHeight : UInt64) : Bool :=
  match s.pendingChunks.get requestedHeight with
  | some chunks => chunks.length == s.numShards.toNat
  | none => false

/-- A tick of the poll interval: `try_recv`'s result, filed if it is a chunk. -/
def tick (s : BlockProposer β) (received : Option ShardChunk) : Except Panic (BlockProposer β) :=
  match received with
  | none => pure s
  | some chunk => s.fileChunk chunk

/-- What `collect_confirmed_shard_chunks` returns once the loop is over. -/
def collectedChunks (s : BlockProposer β) (requestedHeight : UInt64) : List ShardChunk :=
  (s.pendingChunks.get requestedHeight).getD []

/-- The loop of `collect_confirmed_shard_chunks`, over the ticks before the deadline. -/
def collectLoop (s : BlockProposer β) (requestedHeight : UInt64) :
    List (Option ShardChunk) → Except Panic (BlockProposer β)
  | [] => pure s
  | r :: rs => do
    let s ← s.tick r
    if s.collected requestedHeight then pure s else collectLoop s requestedHeight rs

/-- `collect_confirmed_shard_chunks`. -/
def collectConfirmedShardChunks (s : BlockProposer β) (height : Height)
    (ticks : List (Option ShardChunk)) : Except Panic (BlockProposer β × List ShardChunk) := do
  let s ← s.collectLoop height.blockNumber ticks
  pure (s, s.collectedChunks height.blockNumber)

/-- `propose_value` once the chunks are collected; `now` is what `current_time()` reads. -/
def buildProposal (s : BlockProposer β) (height : Height) (round : Int) (now : UInt64)
    (shardChunks : List ShardChunk) : BlockProposer β × FullProposal :=
  let parentHash :=
    match B.getLastBlock s.engine with
    | some block => block.hash
    | none => genesisParentHash
  let blockHeader : BlockHeader := ⟨parentHash, 0, 0, [], [], now, some height⟩
  let hash := H.blockHeader blockHeader
  let block : Block := ⟨some blockHeader, hash, none, none, shardChunks⟩
  let shardHash : ShardHash := ⟨hash, height.shardIndex⟩
  let proposal : FullProposal := ⟨some height, round, some (.block block), s.address⟩
  ({ s with proposedBlocks := s.proposedBlocks.insert shardHash proposal }, proposal)

/-- `propose_value`. -/
def proposeValue (s : BlockProposer β) (height : Height) (round : Int)
    (ticks : List (Option ShardChunk)) (now : UInt64) :
    Except Panic (BlockProposer β × FullProposal) := do
  let (s, shardChunks) ← s.collectConfirmedShardChunks height ticks
  pure (s.buildProposal H B height round now shardChunks)

/-- `add_proposed_value`: every proposal is valid; a block proposal is recorded. -/
def addProposedValue (s : BlockProposer β) (fullProposal : FullProposal) :
    Except Panic (BlockProposer β × Validity) :=
  match fullProposal.proposedValue with
  | some (.block _) => do
    let key ← fullProposal.shardHash
    pure ({ s with proposedBlocks := s.proposedBlocks.insert key fullProposal }, .valid)
  | _ => pure (s, .valid)

/-- `decide`: the proposer afterwards, and the block it committed and published. -/
def decide (s : BlockProposer β) (height : Height) (_round : Int) (value : ShardHash) :
    Except Panic (BlockProposer β × Option Block) :=
  match s.proposedBlocks.get value with
  | none => pure (s, none)
  | some proposal => do
    let block ← unwrap proposal.block .block
    pure ({ s with
      engine := B.commitBlock s.engine block
      proposedBlocks := s.proposedBlocks.remove value
      pendingChunks := s.pendingChunks.remove height.blockNumber }, some block)

/-- `get_confirmed_height`. -/
def getConfirmedHeight (s : BlockProposer β) : Height := B.getConfirmedHeight s.engine

/-- `register_validator`: the blocks it republishes, or the RPC's error. -/
def registerValidator (s : BlockProposer β) (validator : SnapchainValidator)
    (peer : BlockService) : Except RpcError (List Block) :=
  let prevBlockNumber := (B.getConfirmedHeight s.engine).blockNumber
  if validator.currentHeight > prevBlockNumber then
    match validator.rpcAddress with
    | none => .ok []
    | some rpcAddress => peer rpcAddress ⟨s.shardId, prevBlockNumber + 1, none⟩
  else .ok []

/-! ## The proposer's task, step by step -/

/-- Where the task is: between calls, or in the collection loop of a `propose_value`. -/
inductive Phase where
  | idle
  | collecting (height : Height) (round : Int)
  deriving DecidableEq, Repr

structure Task (β : Type) where
  proposer : BlockProposer β
  phase : Phase

/-- A step of the task. A call starts while the task is idle; `tick` and `deadline`
happen in the loop, and `now` is what `current_time()` reads if the loop ends there. -/
inductive Event where
  | proposeValue (height : Height) (round : Int)
  | tick (received : Option ShardChunk) (now : UInt64)
  | deadline (now : UInt64)
  | addProposedValue (fullProposal : FullProposal)
  | decide (height : Height) (round : Int) (value : ShardHash)
  | registerValidator (validator : SnapchainValidator) (peer : BlockService)

/-- What a step receives from the fan-in channel, returns, commits or publishes. -/
inductive Output where
  | received (chunk : ShardChunk)
  | proposed (proposal : FullProposal)
  | validity (v : Validity)
  | committed (height : Height) (block : Block)
  | published (block : Block)
  | rpcError (e : RpcError)
  deriving DecidableEq, Repr

/-- The end of `propose_value`: build the proposal from the chunks collected. -/
def finish (s : BlockProposer β) (height : Height) (round : Int) (now : UInt64) :
    Task β × List Output :=
  let (s, proposal) := s.buildProposal H B height round now (s.collectedChunks height.blockNumber)
  (⟨s, .idle⟩, [.proposed proposal])

/-- One step; a step that cannot happen in the task's phase changes nothing. -/
def Task.step (t : Task β) (e : Event) : Except Panic (Task β × List Output) :=
  match t.phase, e with
  | .idle, .proposeValue height round => pure (⟨t.proposer, .collecting height round⟩, [])
  | .collecting height round, .tick received now => do
    let s ← t.proposer.tick received
    let out := received.toList.map .received
    if s.collected height.blockNumber then
      let (t', proposed) := finish H B s height round now
      pure (t', out ++ proposed)
    else pure (⟨s, .collecting height round⟩, out)
  | .collecting height round, .deadline now => pure (finish H B t.proposer height round now)
  | .idle, .addProposedValue fp => do
    let (s, v) ← t.proposer.addProposedValue fp
    pure (⟨s, .idle⟩, [.validity v])
  | .idle, .decide height round value => do
    match ← t.proposer.decide B height round value with
    | (s, none) => pure (⟨s, .idle⟩, [])
    | (s, some block) => pure (⟨s, .idle⟩, [.committed height block, .published block])
  | .idle, .registerValidator validator peer =>
    match t.proposer.registerValidator B validator peer with
    | .ok blocks => pure (t, blocks.map .published)
    | .error e => pure (t, [.rpcError e])
  | _, _ => pure (t, [])

/-- The steps in order; a panic ends the run. -/
def Task.run : Task β → List Event → Except Panic (Task β × List Output) :=
  runSteps (Task.step H B)

end BlockProposer

end Snapchain
