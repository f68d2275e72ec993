import Snapchain.Proof.ShardSteps
import Snapchain.Proof.BlockSteps

/-!
# The proposal tables

* `decide_never_panics`: in every reachable state of either proposer, `decide` does not
  panic: the table's entries carry the payload its `unwrap` expects.
* `headerless_chunk_panics`: a chunk without a header panics where the code unwraps it,
  in `ShardProposer::add_proposed_value` and in the collection loop of the block
  proposer.
* `proposal_tables_keyed`: every entry of either table is filed under its own
  `shard_hash()`; a proposal the node builds hashes its header and is filed under that
  hash; a peer's proposal is filed under the hash it claims and replaces the entry there.
* `peer_proposal_replaces_entry`: two peer proposals under one key, with different
  transactions: the second replaces the first.
-/

namespace Snapchain

/-- A hasher for concrete runs: every hash is empty. -/
def Hasher.zero : Hasher := ⟨fun _ => [], fun _ => [], fun _ => []⟩

/-- A shard engine for concrete runs: no state, no transactions, every change valid. -/
def ShardEngine.unit : ShardEngine Unit :=
  ⟨fun _ id => (⟨id, [], []⟩, ()), fun _ _ => true, fun _ _ => (), fun _ => ⟨0, 0⟩⟩

/-- A block engine for concrete runs: no state, no last block. -/
def BlockEngine.unit : BlockEngine Unit := ⟨fun _ _ => (), fun _ => none, fun _ => ⟨0, 0⟩⟩

/-- A chunk for concrete runs: the first chunk of a shard, at a block number. -/
def chunkAt (shardIndex : UInt32) (blockNumber : UInt64) : ShardChunk :=
  ⟨some ⟨genesisParentHash, 0, some ⟨shardIndex, blockNumber⟩, []⟩, [], [], none⟩

variable {ε β : Type}

/-- **`decide` never panics in a reachable state**, of either proposer. -/
theorem decide_never_panics (H : Hasher) :
    (∀ (G : ShardEngine ε) address shardId engine txDecision calls s os,
      (ShardProposer.new address shardId engine txDecision).run H G calls = .ok (s, os) →
      ∀ height round value, ∃ r, s.decide G height round value = .ok r) ∧
    (∀ (B : BlockEngine β) address shardId numShards engine events t os,
      BlockProposer.Task.run H B ⟨BlockProposer.new address shardId numShards engine, .idle⟩
        events = .ok (t, os) →
      ∀ height round value, ∃ r, t.proposer.decide B height round value = .ok r) :=
  ⟨fun _ _ _ _ _ _ _ _ h => (ShardProposer.TableOK.run h).decide_ok,
   fun _ _ _ _ _ _ _ _ h => (BlockProposer.TableOK.run h).decide_ok⟩

/-- **A chunk without a header panics**: as the payload of a `Shard` proposal given to
`add_proposed_value`, and when the block proposer's collection loop receives it. -/
theorem headerless_chunk_panics (G : ShardEngine ε) (s : ShardProposer ε)
    (b : BlockProposer β) (height : Height) (round : Int) (proposer hash : Bytes)
    (transactions : List Transaction) (votes : Option Bytes) :
    s.addProposedValue G
        ⟨some height, round, some (.shard ⟨none, hash, transactions, votes⟩), proposer⟩ =
      .error .header ∧
    b.tick (some ⟨none, hash, transactions, votes⟩) = .error .header :=
  ⟨rfl, rfl⟩

/-- **The tables are keyed by `shard_hash()`.** In every reachable state of either
proposer each entry is filed under its own `shard_hash()`; the proposal `propose_value`
builds carries the hash of its own header and is filed under that hash and the shard of
its height, every other entry staying; and a peer's proposal is filed under the hash it
claims, replacing the entry there. -/
theorem proposal_tables_keyed (H : Hasher) :
    (∀ (G : ShardEngine ε) address shardId engine txDecision calls s os,
      (ShardProposer.new address shardId engine txDecision).run H G calls = .ok (s, os) →
      ∀ k p, s.proposedChunks.get k = some p → p.shardHash = .ok k) ∧
    (∀ (B : BlockEngine β) address shardId numShards engine events t os,
      BlockProposer.Task.run H B ⟨BlockProposer.new address shardId numShards engine, .idle⟩
        events = .ok (t, os) →
      ∀ k p, t.proposer.proposedBlocks.get k = some p → p.shardHash = .ok k) ∧
    (∀ (G : ShardEngine ε) (s : ShardProposer ε) height round now,
      ∃ c header, (s.proposeValue H G height round now).2.proposedValue = some (.shard c) ∧
        c.header = some header ∧ c.hash = H.shardHeader header ∧
        (s.proposeValue H G height round now).2.shardHash = .ok ⟨c.hash, height.shardIndex⟩ ∧
        (s.proposeValue H G height round now).1.proposedChunks =
          s.proposedChunks.insert ⟨c.hash, height.shardIndex⟩
            (s.proposeValue H G height round now).2) ∧
    (∀ (B : BlockEngine β) (s : BlockProposer β) height round now cs,
      ∃ b header,
        (s.buildProposal H B height round now cs).2.proposedValue = some (.block b) ∧
        b.header = some header ∧ b.hash = H.blockHeader header ∧
        (s.buildProposal H B height round now cs).2.shardHash = .ok ⟨b.hash, height.shardIndex⟩ ∧
        (s.buildProposal H B height round now cs).1.proposedBlocks =
          s.proposedBlocks.insert ⟨b.hash, height.shardIndex⟩
            (s.buildProposal H B height round now cs).2) ∧
    (∀ (G : ShardEngine ε) (s s' : ShardProposer ε) fp c k v,
      fp.proposedValue = some (.shard c) → fp.shardHash = .ok k →
      s.addProposedValue G fp = .ok (s', v) → s'.proposedChunks.get k = some fp) ∧
    (∀ (s s' : BlockProposer β) fp b k v,
      fp.proposedValue = some (.block b) → fp.shardHash = .ok k →
      s.addProposedValue fp = .ok (s', v) → s'.proposedBlocks.get k = some fp) := by
  refine ⟨fun _ _ _ _ _ _ _ _ h => (ShardProposer.TableOK.run h).keyed,
    fun _ _ _ _ _ _ _ _ h => (BlockProposer.TableOK.run h).keyed,
    fun _ _ _ _ _ => ⟨_, _, rfl, rfl, rfl, rfl, rfl⟩,
    fun _ _ _ _ _ _ => ⟨_, _, rfl, rfl, rfl, rfl, rfl⟩, ?_, ?_⟩
  · intro G s s' fp c k v hc hk h
    rcases ShardProposer.addProposedValue_cases h with ⟨c', k', hc', hk', rfl⟩ | ⟨hne, -⟩
    · rw [hk] at hk'
      cases hk'
      simp
    · exact absurd hc (hne c)
  · intro s s' fp b k v hb hk h
    rcases (BlockProposer.addProposedValue_cases h).2 with ⟨b', k', hb', hk', rfl⟩ | ⟨hne, -⟩
    · rw [hk] at hk'
      cases hk'
      simp
    · exact absurd hb (hne b)

/-- **A peer's proposal replaces the entry under its key.** Two proposals at height
`(1, 1)` claim the hash `[7]` and carry different transactions; after both are given to
`add_proposed_value`, the entry under `([7], 1)` is the second. -/
theorem peer_proposal_replaces_entry :
    ((ShardProposer.new [] 1 () true).run Hasher.zero ShardEngine.unit
        [.addProposedValue ⟨some ⟨1, 1⟩, 0,
          some (.shard ⟨some ⟨[0, 32], 0, some ⟨1, 1⟩, []⟩, [7], [], none⟩), []⟩]).map
      (fun r => r.1.proposedChunks.get ⟨[7], 1⟩) =
      .ok (some ⟨some ⟨1, 1⟩, 0,
        some (.shard ⟨some ⟨[0, 32], 0, some ⟨1, 1⟩, []⟩, [7], [], none⟩), []⟩) ∧
    ((ShardProposer.new [] 1 () true).run Hasher.zero ShardEngine.unit
        [.addProposedValue ⟨some ⟨1, 1⟩, 0,
          some (.shard ⟨some ⟨[0, 32], 0, some ⟨1, 1⟩, []⟩, [7], [], none⟩), []⟩,
         .addProposedValue ⟨some ⟨1, 1⟩, 0,
          some (.shard ⟨some ⟨[0, 32], 0, some ⟨1, 1⟩, []⟩, [7], [⟨[1]⟩], none⟩), []⟩]).map
      (fun r => r.1.proposedChunks.get ⟨[7], 1⟩) =
      .ok (some ⟨some ⟨1, 1⟩, 0,
        some (.shard ⟨some ⟨[0, 32], 0, some ⟨1, 1⟩, []⟩, [7], [⟨[1]⟩], none⟩), []⟩) := by
  decide

end Snapchain
