import Snapchain.Spec.Engine

/-!
# `ShardProposer` (`consensus/proposer.rs`)

The proposer of a data shard. `propose_value` builds a chunk on top of the last decided
one and records it under its `ShardHash`; `add_proposed_value` records a peer's proposal
and asks the engine whether its state change is valid; `decide` publishes the chunk
recorded under the decided key, appends it, commits it and evicts it;
`register_validator` republishes what a peer ahead of us returns.

The clock (`current_time()`) and a peer's RPC service are inputs. `decide` awaits the
publication before it appends and commits: `decideLookup` is its part before the await,
`decideResume` the part after.

A run is a list of the calls the consensus actor makes, `Call`, each answered in turn;
`Output` is what a call returns, sends or commits.
-/

namespace Snapchain

/-- `ShardChunksRequest`. -/
structure ShardChunksRequest where
  shardId : UInt32
  startBlockNumber : UInt64
  stopBlockNumber : Option UInt64
  deriving DecidableEq, Repr

/-- An error of the catch-up RPC: connecting, or the response. -/
inductive RpcError where
  | transport
  | response
  deriving DecidableEq, Repr

/-- A peer's RPC service: the answer to a request sent to an address. -/
def ChunkService := String → ShardChunksRequest → Except RpcError (List ShardChunk)

/-- Modelled from the spec: a peer that answers `ShardChunksRequest` from its shard store
with `ShardStore::get_shard_chunks`; a store error is an error of the response. -/
def ChunkService.ofStore {ν : Type} (E : StoreEnv ν) (store : ShardStore ν) : ChunkService :=
  fun _ request =>
    match store.getShardChunks E request.startBlockNumber request.stopBlockNumber with
    | some (.ok shardChunks) => .ok shardChunks
    | _ => .error .response

/-- `ShardProposer`. `txDecision` says whether it holds a `tx_decision` sender. -/
structure ShardProposer (ε : Type) where
  shardId : UInt32
  address : Bytes
  chunks : List ShardChunk
  proposedChunks : BTreeMap ShardHash FullProposal
  txDecision : Bool
  engine : ε

namespace ShardProposer

variable {ε : Type} (H : Hasher) (G : ShardEngine ε)

def new (address : Bytes) (shardId : UInt32) (engine : ε) (txDecision : Bool) :
    ShardProposer ε :=
  ⟨shardId, address, [], .new, txDecision, engine⟩

/-- `publish_new_shard_chunk`: what goes on the `tx_decision` channel. -/
def publishNewShardChunk (s : ShardProposer ε) (shardChunk : ShardChunk) : List ShardChunk :=
  if s.txDecision then [shardChunk] else []

/-- The parent hash `propose_value` uses: the last chunk's hash, `vec![0, 32]` before any. -/
def parentHash (s : ShardProposer ε) : Bytes :=
  match s.chunks.getLast? with
  | some chunk => chunk.hash
  | none => genesisParentHash

/-- `propose_value`; `now` is what `current_time()` reads. -/
def proposeValue (s : ShardProposer ε) (height : Height) (round : Int) (now : UInt64) :
    ShardProposer ε × FullProposal :=
  let (stateChange, engine) := G.proposeStateChange s.engine s.shardId
  let shardHeader : ShardHeader := ⟨s.parentHash, now, some height, stateChange.newStateRoot⟩
  let hash := H.shardHeader shardHeader
  let chunk : ShardChunk := ⟨some shardHeader, hash, stateChange.transactions, none⟩
  let shardHash : ShardHash := ⟨hash, height.shardIndex⟩
  let proposal : FullProposal := ⟨some height, round, some (.shard chunk), s.address⟩
  ({ s with engine, proposedChunks := s.proposedChunks.insert shardHash proposal }, proposal)

/-- `add_proposed_value`. -/
def addProposedValue (s : ShardProposer ε) (fullProposal : FullProposal) :
    Except Panic (ShardProposer ε × Validity) :=
  match fullProposal.proposedValue with
  | some (.shard chunk) => do
    let key ← fullProposal.shardHash
    let s := { s with proposedChunks := s.proposedChunks.insert key fullProposal }
    let header ← unwrap chunk.header .header
    let height ← unwrap header.height .height
    let state : ShardStateChange := ⟨height.shardIndex, header.shardRoot, chunk.transactions⟩
    pure (s, if G.validateStateChange s.engine state then .valid else .invalid)
  | _ => pure (s, .invalid)

/-- `decide` up to the `publish` await: the chunk of the proposal under `value`, if any. -/
def decideLookup (s : ShardProposer ε) (value : ShardHash) : Except Panic (Option ShardChunk) :=
  match s.proposedChunks.get value with
  | none => pure none
  | some proposal => some <$> unwrap proposal.shardChunk .shardChunk

/-- `decide` after the `publish` await: append the chunk, commit it, evict the proposal. -/
def decideResume (s : ShardProposer ε) (value : ShardHash) (chunk : ShardChunk) :
    ShardProposer ε :=
  { s with
    chunks := s.chunks ++ [chunk]
    engine := G.commitShardChunk s.engine chunk
    proposedChunks := s.proposedChunks.remove value }

/-- `decide`: the proposer afterwards, and the chunk it committed (and published). The
height and the round are not read. -/
def decide (s : ShardProposer ε) (_height : Height) (_round : Int) (value : ShardHash) :
    Except Panic (ShardProposer ε × Option ShardChunk) := do
  match ← s.decideLookup value with
  | none => pure (s, none)
  | some chunk => pure (s.decideResume G value chunk, some chunk)

/-- `get_confirmed_height`. -/
def getConfirmedHeight (s : ShardProposer ε) : Height := G.getConfirmedHeight s.engine

/-- `register_validator`: the chunks it republishes, or the RPC's error. -/
def registerValidator (s : ShardProposer ε) (validator : SnapchainValidator)
    (peer : ChunkService) : Except RpcError (List ShardChunk) :=
  let prevBlockNumber := (G.getConfirmedHeight s.engine).blockNumber
  if validator.currentHeight > prevBlockNumber then
    match validator.rpcAddress with
    | none => .ok []
    | some rpcAddress => do
      let missingShardChunks ← peer rpcAddress ⟨s.shardId, prevBlockNumber + 1, none⟩
      pure (missingShardChunks.flatMap s.publishNewShardChunk)
  else .ok []

/-! ## Runs -/

/-- A call of the consensus actor on the proposer. -/
inductive Call where
  | proposeValue (height : Height) (round : Int) (now : UInt64)
  | addProposedValue (fullProposal : FullProposal)
  | decide (height : Height) (round : Int) (value : ShardHash)
  | registerValidator (validator : SnapchainValidator) (peer : ChunkService)

/-- What a call returns, sends on `tx_decision`, or commits to the engine. -/
inductive Output where
  | proposed (proposal : FullProposal)
  | validity (v : Validity)
  | published (chunk : ShardChunk)
  | committed (height : Height) (chunk : ShardChunk)
  | rpcError (e : RpcError)
  deriving DecidableEq, Repr

/-- The chunks the outputs sent on `tx_decision`, in order. -/
def sent : List Output → List ShardChunk
  | [] => []
  | .published c :: os => c :: sent os
  | _ :: os => sent os

/-- One call. -/
def step (s : ShardProposer ε) : Call → Except Panic (ShardProposer ε × List Output)
  | .proposeValue height round now =>
    let (s, p) := s.proposeValue H G height round now
    pure (s, [.proposed p])
  | .addProposedValue fp => do
    let (s, v) ← s.addProposedValue G fp
    pure (s, [.validity v])
  | .decide height round value => do
    match ← s.decide G height round value with
    | (s', none) => pure (s', [])
    | (s', some chunk) =>
      pure (s', (s.publishNewShardChunk chunk).map .published ++ [.committed height chunk])
  | .registerValidator validator peer =>
    match s.registerValidator G validator peer with
    | .ok chunks => pure (s, chunks.map .published)
    | .error e => pure (s, [.rpcError e])

/-- The calls in order; a panic ends the run. -/
def run : ShardProposer ε → List Call → Except Panic (ShardProposer ε × List Output) :=
  runSteps (step H G)

end ShardProposer

end Snapchain
