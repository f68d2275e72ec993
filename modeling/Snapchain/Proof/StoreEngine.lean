import Snapchain.Proof.StoreMap
import Snapchain.Proof.Chain

/-!
# The shard proposer over its store

`ShardEngine.ofStore` is the shard engine over the store of `shard.rs`:
`commit_shard_chunk` is `put_shard_chunk` and `get_confirmed_height` is
`max_block_number`. Only `decide` commits, so along any run of the shard proposer the
store is the store it started from after the puts of the chunks the run committed
(`store_run`). Through the map that store refines (`ChunkMap`):

* `confirmed_height_of_commits`: in every run of a shard proposer from an empty store,
  when decoding undoes encoding, the store holds the last chunk committed at each
  committed block number and nothing else, and `get_confirmed_height` is the largest
  block number committed, 0 before any commit: it reaches `h` only once a chunk of a
  block number at least `h` has been committed.
* `commit_shard_chunk_idempotent`: committing a chunk a second time leaves the engine as
  the first commit left it.
* `proposal_valid_at_peer`: a peer whose store holds what the proposer's holds accepts
  the proposal `propose_value` returns as valid, and files it under the same key.
* `catch_up_republishes_missing`: `register_validator`, asking a peer ahead of it whose
  service answers from a store written by puts, republishes exactly the peer's chunks
  above the local confirmed height, in ascending order.
-/

namespace Snapchain

open BlockProposer (chunkBlockNumber)

/-! ## Block numbers of the map -/

namespace ChunkMap

theorem find_isSome_iff (m : ChunkMap) (k : UInt64) :
    (m.find k).isSome ↔ ∃ c, (k, c) ∈ m.entries := by
  simp [find, List.find?_isSome]

/-- The block numbers of the map of puts are those of the chunks put. -/
theorem mem_putAll_empty (cs : List ShardChunk) (k : UInt64) :
    (∃ c, (k, c) ∈ (empty.putAll cs).entries) ↔ ∃ c ∈ cs, chunkBlockNumber c = some k := by
  rw [← find_isSome_iff, find_putAll, show empty.find k = none from rfl, Option.or_none,
    List.getLast?_isSome, ne_eq, List.filter_eq_nil_iff]
  simp

theorem le_maxBlockNumber {m : ChunkMap} {k : UInt64} {c : ShardChunk} (h : (k, c) ∈ m.entries) :
    k ≤ m.maxBlockNumber := by
  cases hl : m.entries.getLast? with
  | none => simp [List.getLast?_eq_none_iff.1 hl] at h
  | some e =>
    obtain ⟨ys, hys⟩ := List.getLast?_eq_some_iff.1 hl
    have hs := m.sorted
    rw [hys, List.pairwise_append] at hs
    rw [hys, List.mem_append, List.mem_singleton] at h
    simp only [maxBlockNumber, hl, Option.map_some', Option.getD_some]
    rcases h with h | rfl
    · exact UInt64.not_lt.1 (UInt64.lt_asymm (hs.2.2 _ h e (List.mem_singleton_self e)))
    · exact UInt64.le_refl _

theorem maxBlockNumber_mem (m : ChunkMap) :
    m.maxBlockNumber = 0 ∨ ∃ c, (m.maxBlockNumber, c) ∈ m.entries := by
  cases hl : m.entries.getLast? with
  | none => exact .inl (by simp [maxBlockNumber, hl])
  | some e =>
    refine .inr ⟨e.2, ?_⟩
    simpa [maxBlockNumber, hl] using List.mem_of_mem_getLast? (Option.mem_def.2 hl)

end ChunkMap

/-! ## The engine over the store -/

variable {ν : Type} {E : StoreEnv ν} {shardId : UInt32}
  {stateRoot : ShardStore ν → List Transaction → Bytes}

theorem ShardStore.putShardChunks_append (s : ShardStore ν) (cs ds : List ShardChunk) :
    s.putShardChunks E (cs ++ ds) = (s.putShardChunks E cs).putShardChunks E ds :=
  List.foldl_append _ _ _ _

theorem ofStore_commitShardChunk (e : StoreEngine ν) (c : ShardChunk) :
    (ShardEngine.ofStore E shardId stateRoot).commitShardChunk e c =
      { e with store := e.store.putShardChunks E [c] } := by
  simp only [ShardEngine.ofStore, ShardStore.putShardChunks, List.foldl_cons, List.foldl_nil]
  cases e.store.putShardChunk E c <;> rfl

/-- `insert` under a key already holding the value changes nothing. -/
theorem insertEntry_idem (k : Bytes) (v : ν) :
    ∀ l : List (Bytes × ν), insertEntry k v (insertEntry k v l) = insertEntry k v l
  | [] => by simp [insertEntry, keyLt_irrefl]
  | e :: rest => by
    by_cases h1 : keyLt k e.1
    · simp [insertEntry, h1, keyLt_irrefl]
    by_cases h2 : k = e.1
    · simp [insertEntry, h1, h2, keyLt_irrefl]
    · simp [insertEntry, h1, h2, insertEntry_idem k v rest]

/-- **Committing twice is committing once**: for every engine state and chunk, a second
`commit_shard_chunk` of the chunk leaves the engine, its store included, as the first
left it, so `get_confirmed_height` does not change either. -/
theorem commit_shard_chunk_idempotent (e : StoreEngine ν) (c : ShardChunk) :
    (ShardEngine.ofStore E shardId stateRoot).commitShardChunk
        ((ShardEngine.ofStore E shardId stateRoot).commitShardChunk e c) c =
      (ShardEngine.ofStore E shardId stateRoot).commitShardChunk e c := by
  rcases c with ⟨_ | ⟨p, t, _ | height, r⟩, hash, txs, votes⟩
  · rfl
  · rfl
  · simp only [ShardEngine.ofStore, ShardStore.putShardChunk, putShardChunk, Except.map,
      RocksDB.put, StoreEngine.mk.injEq, ShardStore.mk.injEq, RocksDB.mk.injEq, and_true]
    exact insertEntry_idem _ _ _

/-! ## Runs of the shard proposer -/

/-- **The store holds what the engine was given to commit**, put on top of what it held:
proposing leaves the store alone. -/
theorem ShardEngine.Commits.store {sid : UInt32} {e e' : StoreEngine ν} {cs : List ShardChunk}
    (h : (ShardEngine.ofStore E shardId stateRoot).Commits sid e cs e') :
    e'.store = e.store.putShardChunks E cs := by
  induction h with
  | refl => rfl
  | propose _ ih => exact ih
  | commit c _ ih =>
    rw [ofStore_commitShardChunk, ShardStore.putShardChunks_append, ← ih]

namespace ShardProposer

variable {H : Hasher} {s s' : ShardProposer (StoreEngine ν)}

theorem store_run {calls : List Call} {os : List Output}
    (h : s.run H (ShardEngine.ofStore E shardId stateRoot) calls = .ok (s', os)) :
    s'.engine.store = s.engine.store.putShardChunks E (committedChunks os) :=
  (Appends.run h).engine.store

end ShardProposer

/-- The confirmed height of an engine whose store denotes the map of the puts `cs`: the
largest block number of `cs`, 0 when there is none. -/
theorem confirmedHeight_of_denotes (hE : ∀ c, E.decode (E.encode c) = some c) {shardId : UInt32}
    {e : StoreEngine ν} {cs : List ShardChunk} (hd : Denotes E e.store.db (ChunkMap.empty.putAll cs)) :
    ∃ n, (ShardEngine.ofStore E shardId stateRoot).getConfirmedHeight e = ⟨shardId, n⟩ ∧
      (∀ c ∈ cs, ∀ k, chunkBlockNumber c = some k → k ≤ n) ∧
      (n = 0 ∨ ∃ c ∈ cs, chunkBlockNumber c = some n) := by
  refine ⟨(ChunkMap.empty.putAll cs).maxBlockNumber, ?_, fun c hc k hk => ?_, ?_⟩
  · simp only [ShardEngine.ofStore, maxBlockNumber_denotes hE hd]
  · obtain ⟨c', hc'⟩ := (ChunkMap.mem_putAll_empty _ k).2 ⟨c, hc, hk⟩
    exact ChunkMap.le_maxBlockNumber hc'
  · exact (ChunkMap.maxBlockNumber_mem _).imp_right (ChunkMap.mem_putAll_empty _ _).1

/-- **The confirmed height is the largest committed block number.** In every run of a
shard proposer over the engine over an empty shard store (any calls, peer proposals and
catch-up answers arbitrary), when decoding undoes encoding, the store holds exactly the
bindings of the map of the chunks `decide` committed, in order (the last chunk committed
at each block number), and `get_confirmed_height` is the shard's height at the largest
block number committed, or at 0 before any commit. -/
theorem confirmed_height_of_commits (hE : ∀ c, E.decode (E.encode c) = some c)
    {H : Hasher} {address : Bytes} {mempool : List Transaction} {txDecision : Bool}
    {calls : List ShardProposer.Call} {s : ShardProposer (StoreEngine ν)}
    {os : List ShardProposer.Output}
    (h : (ShardProposer.new address shardId ⟨ShardStore.empty, mempool⟩ txDecision).run H
      (ShardEngine.ofStore E shardId stateRoot) calls = .ok (s, os)) :
    s.engine.store.db.entries =
        (ChunkMap.empty.putAll (ShardProposer.committedChunks os)).entries.map (encodeEntry E) ∧
      ∃ n, s.getConfirmedHeight (ShardEngine.ofStore E shardId stateRoot) = ⟨shardId, n⟩ ∧
        (∀ c ∈ ShardProposer.committedChunks os, ∀ k, chunkBlockNumber c = some k → k ≤ n) ∧
        (n = 0 ∨ ∃ c ∈ ShardProposer.committedChunks os, chunkBlockNumber c = some n) := by
  have hd : Denotes E s.engine.store.db (ChunkMap.empty.putAll (ShardProposer.committedChunks os)) := by
    rw [ShardProposer.store_run h]
    exact putShardChunks_denotes _ rfl
  exact ⟨hd, confirmedHeight_of_denotes hE hd⟩

theorem confirmed_height_of_commits_two_blocks :
    (∀ c, StoreEnv.plain.decode (StoreEnv.plain.encode c) = some c) ∧
    ∃ s os, (ShardProposer.new [] 1 ⟨ShardStore.empty, []⟩ true).run Hasher.zero
        (ShardEngine.ofStore StoreEnv.plain 1 fun _ _ => [])
        [.proposeValue ⟨1, 1⟩ 0 0, .decide ⟨1, 1⟩ 0 ⟨[], 1⟩, .proposeValue ⟨1, 2⟩ 0 0,
          .decide ⟨1, 2⟩ 0 ⟨[], 1⟩] = .ok (s, os) ∧
      s.engine.store.db.entries = (ChunkMap.empty.putAll (ShardProposer.committedChunks os)).entries.map
          (encodeEntry StoreEnv.plain) ∧
      ∃ n, s.getConfirmedHeight (ShardEngine.ofStore StoreEnv.plain 1 fun _ _ => []) = ⟨1, n⟩ ∧
        (∀ c ∈ ShardProposer.committedChunks os, ∀ k, chunkBlockNumber c = some k → k ≤ n) ∧
        (n = 0 ∨ ∃ c ∈ ShardProposer.committedChunks os, chunkBlockNumber c = some n) := by
  obtain ⟨s, os, h⟩ : ∃ s os, (ShardProposer.new [] 1 ⟨ShardStore.empty, []⟩ true).run Hasher.zero
      (ShardEngine.ofStore StoreEnv.plain 1 fun _ _ => [])
      [.proposeValue ⟨1, 1⟩ 0 0, .decide ⟨1, 1⟩ 0 ⟨[], 1⟩, .proposeValue ⟨1, 2⟩ 0 0,
        .decide ⟨1, 2⟩ 0 ⟨[], 1⟩] = .ok (s, os) := ⟨_, _, rfl⟩
  exact ⟨fun _ => rfl, s, os, h, confirmed_height_of_commits (fun _ => rfl) h⟩

/-! ## A proposal at a peer -/

/-- A shard proposer whose store holds the chunk of block 1. -/
def oneChunkProposer : ShardProposer (StoreEngine ShardChunk) :=
  ShardProposer.new [] 1 (StoreEngine.mk (ShardStore.empty.putShardChunks StoreEnv.plain [chunkAt 1 1]) []) true

/-- **A proposal is valid at every peer holding the proposer's store.** For every shard
proposer over the engine over a shard store and every peer over the same store contents,
the peer's `add_proposed_value` finds the state change the proposal's chunk carries valid
and files the proposal under the key `propose_value` filed it under. -/
theorem proposal_valid_at_peer {H : Hasher} (s p : ShardProposer (StoreEngine ν))
    (hstore : p.engine.store = s.engine.store) (height : Height) (round : Int) (now : UInt64) :
    ∃ k, (s.proposeValue H (ShardEngine.ofStore E shardId stateRoot) height round now).2.shardHash =
        .ok k ∧
      (s.proposeValue H (ShardEngine.ofStore E shardId stateRoot) height round now).1.proposedChunks =
        s.proposedChunks.insert k
          (s.proposeValue H (ShardEngine.ofStore E shardId stateRoot) height round now).2 ∧
      p.addProposedValue (ShardEngine.ofStore E shardId stateRoot)
          (s.proposeValue H (ShardEngine.ofStore E shardId stateRoot) height round now).2 =
        .ok ({ p with
          proposedChunks := p.proposedChunks.insert k
            (s.proposeValue H (ShardEngine.ofStore E shardId stateRoot) height round now).2 },
          .valid) := by
  obtain ⟨k, hk, ht⟩ := ShardProposer.proposeValue_table (s := s) (H := H)
    (G := ShardEngine.ofStore E shardId stateRoot) height round now
  refine ⟨k, hk, ht, ?_⟩
  rw [ShardProposer.proposeValue_snd] at hk ⊢
  rw [FullProposal.shardHash_eq rfl rfl, Except.ok.injEq] at hk
  subst hk
  simp [ShardProposer.addProposedValue, ShardProposer.ownHeader, ShardEngine.ofStore, hstore]

/-! ## Catch-up from a peer's store -/

/-- Below a block number, one more is the successor: it does not wrap around. -/
theorem succ_le_iff_lt {p q : UInt64} (hq : p < q) (n : UInt64) : p + 1 ≤ n ↔ p < n := by
  have e : (p + 1).toNat = (p.toNat + 1) % 18446744073709551616 := rfl
  have hs : q.toNat < 18446744073709551616 := q.toNat_lt_size
  change p.toNat < q.toNat at hq
  change (p + 1).toNat ≤ n.toNat ↔ p.toNat < n.toNat
  rw [e]
  omega

section CatchUp

variable {ε : Type}

/-- **Catch-up fetches what is missing.** For every shard proposer, whatever its engine,
and every validator ahead of it with an RPC address, whose service answers from a shard
store written by puts: when decoding undoes encoding, `register_validator` republishes,
in ascending order of block numbers, exactly the peer's chunks of the block numbers above
the local confirmed height, the last one put at each (none when it holds no sender). -/
theorem catch_up_republishes_missing (hE : ∀ c, E.decode (E.encode c) = some c)
    (G : ShardEngine ε) (s : ShardProposer ε) {validator : SnapchainValidator}
    {rpcAddress : String} (cs : List ShardChunk) (ha : validator.rpcAddress = some rpcAddress)
    (hv : (s.getConfirmedHeight G).blockNumber < validator.currentHeight) :
    s.registerValidator G validator (ChunkService.ofStore E (ShardStore.empty.putShardChunks E cs)) =
      .ok (((ChunkMap.empty.putAll cs).entries.filter
        fun e => decide ((s.getConfirmedHeight G).blockNumber < e.1)).map Prod.snd
          |>.flatMap s.publishNewShardChunk) := by
  have hd := putShardChunks_denotes (E := E) (s := .empty) (m := .empty) cs rfl
  have hv' : (G.getConfirmedHeight s.engine).blockNumber < validator.currentHeight := hv
  simp only [ShardProposer.registerValidator, gt_iff_lt, if_pos hv', ha, ChunkService.ofStore,
    getShardChunks_denotes hE hd, ChunkMap.range, Option.all, Bool.and_true,
    succ_le_iff_lt hv', ok_bind]
  rfl

theorem catch_up_republishes_missing_from_one :
    (∀ c, StoreEnv.plain.decode (StoreEnv.plain.encode c) = some c) ∧
    (SnapchainValidator.mk (some "peer") 3).rpcAddress = some "peer" ∧
    (oneChunkProposer.getConfirmedHeight (ShardEngine.ofStore StoreEnv.plain 1 fun _ _ => [])).blockNumber < 3 ∧
    oneChunkProposer.registerValidator (ShardEngine.ofStore StoreEnv.plain 1 fun _ _ => [])
        ⟨some "peer", 3⟩ (ChunkService.ofStore StoreEnv.plain threeChunkStore) =
      .ok (((ChunkMap.empty.putAll [chunkAt 1 3, chunkAt 1 1, chunkAt 1 2]).entries.filter
        fun e => decide ((oneChunkProposer.getConfirmedHeight
            (ShardEngine.ofStore StoreEnv.plain 1 fun _ _ => [])).blockNumber < e.1)).map Prod.snd
          |>.flatMap oneChunkProposer.publishNewShardChunk) :=
  ⟨fun _ => rfl, rfl, by decide,
    catch_up_republishes_missing (fun _ => rfl) _ _ _ rfl (by decide)⟩

example : oneChunkProposer.registerValidator (ShardEngine.ofStore StoreEnv.plain 1 fun _ _ => [])
    ⟨some "peer", 3⟩ (ChunkService.ofStore StoreEnv.plain threeChunkStore) =
      .ok [chunkAt 1 2, chunkAt 1 3] := by decide

end CatchUp

end Snapchain
