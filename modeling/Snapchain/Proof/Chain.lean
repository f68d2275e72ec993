import Snapchain.Proof.Pending

/-!
# The hash chains

`propose_value` builds on the last chunk the shard proposer appended (on the last block
the block engine holds): it names that hash as parent, puts the height it is called at in
the header and hashes the header. `decide` appends and commits whatever is filed under
the decided key, and `add_proposed_value` files a peer's proposal under the hash the
proposal claims without looking at its header, so a decided peer proposal need not
extend the chain.

* `own_decisions_chain`: in every run, the chunks the shard proposer appends are those it
  commits, in order, and those are what its engine is given to commit, in order
  (`Appends`); a chunk the node proposed at a height and then committed with no commit in
  between is at that height, names the hash of the chunk committed before it as parent
  (`vec![0, 32]` if none) and carries the hash of its header. The same for blocks, over
  the block engine whose `get_last_block` is the last block committed (`Task.engine_run`).
* `decided_peer_chunks_break_chain`: two decided peer chunks whose second names another
  parent than the first's hash.
* `block_hash_ignores_chunks`: the block header leaves `shard_headers_hash` empty, so the
  hash of a proposed block, and its key, do not depend on its chunks.
-/

namespace Snapchain

/-- `e'` is where the engine of shard `shardId` gets from `e` through the calls a shard
proposer makes on it, `cs` being the chunks it is given to commit, in order:
`propose_state_change` and `commit_shard_chunk` (`validate_state_change` and
`get_confirmed_height` only read it). -/
inductive ShardEngine.Commits {ε : Type} (G : ShardEngine ε) (shardId : UInt32) (e : ε) :
    List ShardChunk → ε → Prop
  | refl : Commits G shardId e [] e
  | propose {cs : List ShardChunk} {e' : ε} :
      Commits G shardId e cs e' → Commits G shardId e cs (G.proposeStateChange e' shardId).2
  | commit {cs : List ShardChunk} {e' : ε} (c : ShardChunk) :
      Commits G shardId e cs e' → Commits G shardId e (cs ++ [c]) (G.commitShardChunk e' c)

/-! ## The shard proposer -/

namespace ShardProposer

variable {ε : Type} {H : Hasher} {G : ShardEngine ε} {s s' : ShardProposer ε}

/-- The chunks the outputs commit, in order. -/
def committedChunks (os : List Output) : List ShardChunk :=
  os.filterMap fun
    | .committed _ c => some c
    | _ => none

@[simp] theorem committedChunks_append (os o : List Output) :
    committedChunks (os ++ o) = committedChunks os ++ committedChunks o :=
  List.filterMap_append _ _ _

@[simp] theorem committedChunks_nil : committedChunks [] = [] := rfl

@[simp] theorem committedChunks_proposed_cons (p : FullProposal) (os : List Output) :
    committedChunks (.proposed p :: os) = committedChunks os :=
  rfl

@[simp] theorem committedChunks_committed_cons (height : Height) (c : ShardChunk)
    (os : List Output) : committedChunks (.committed height c :: os) = c :: committedChunks os :=
  rfl

@[simp] theorem committedChunks_published (cs : List ShardChunk) :
    committedChunks (cs.map .published) = [] := by
  induction cs <;> simp_all [committedChunks]

/-- The parent hash of a chunk built on the chain `cs`. -/
def lastHash (cs : List ShardChunk) : Bytes :=
  match cs.getLast? with
  | some c => c.hash
  | none => genesisParentHash

/-- `propose_value` names the last hash of the chunks appended. -/
theorem parentHash_eq_lastHash : s.parentHash = lastHash s.chunks := by
  unfold parentHash lastHash
  cases s.chunks.getLast? <;> rfl

/-- A `decide` call commits the chunk it returns, if any, and nothing else. -/
theorem committedChunks_decide {height : Height} {round : Int} {value : ShardHash}
    {o : List Output} (h : s.step H G (.decide height round value) = .ok (s', o)) :
    ∃ oc, s.decide G height round value = .ok (s', oc) ∧ committedChunks o = oc.toList := by
  rcases step_cases h with ⟨_, _, _, he, -⟩ | ⟨_, _, he, -⟩ |
    ⟨height', round', value', oc, he, h1, rfl⟩ | ⟨_, _, he, -⟩ <;> cases he
  exact ⟨oc, h1, by cases oc <;> simp [committedChunks, List.filterMap_append]⟩

/-- What a run does to the chain: it appends the chunks it commits, in order, and gives
the engine just those chunks to commit, in that order. -/
structure Appends (G : ShardEngine ε) (s s' : ShardProposer ε) (os : List Output) : Prop where
  shardId : s'.shardId = s.shardId
  chunks : s'.chunks = s.chunks ++ committedChunks os
  engine : G.Commits s.shardId s.engine (committedChunks os) s'.engine

theorem Appends.refl (s : ShardProposer ε) : Appends G s s [] :=
  ⟨rfl, by simp [committedChunks], .refl⟩

/-- **Every call appends and commits what it outputs as committed.** -/
theorem Appends.step {s₀ : ShardProposer ε} {os : List Output} (ha : Appends G s₀ s os)
    {c : Call} {o : List Output} (h : s.step H G c = .ok (s', o)) : Appends G s₀ s' (os ++ o) := by
  have hnil : ∀ {s' : ShardProposer ε}, s'.shardId = s.shardId → s'.chunks = s.chunks →
      s'.engine = s.engine → committedChunks o = [] → Appends G s₀ s' (os ++ o) :=
    fun h1 h2 h3 h4 => ⟨h1.trans ha.shardId, by simp [h2, h4, ha.chunks], by
      simpa [h3, h4] using ha.engine⟩
  rcases step_cases h with ⟨height, round, now, -, rfl, rfl⟩ | ⟨fp, v, -, h1, rfl⟩ |
    ⟨height, round, value, oc, -, h1, rfl⟩ | ⟨-, -, -, rfl, ho⟩
  · refine ⟨ha.shardId, by simp [ha.chunks], ?_⟩
    show G.Commits s₀.shardId s₀.engine (committedChunks (os ++ [.proposed _]))
      (G.proposeStateChange s.engine s.shardId).2
    rw [ha.shardId, committedChunks_append, committedChunks_proposed_cons]
    simpa [committedChunks] using ha.engine.propose
  · rcases addProposedValue_cases h1 with ⟨-, -, -, -, rfl⟩ | ⟨-, rfl, -⟩ <;>
      exact hnil rfl rfl rfl rfl
  · rcases decide_cases h1 with ⟨-, rfl, rfl⟩ | ⟨-, c, -, -, rfl, rfl⟩
    · exact hnil rfl rfl rfl rfl
    · refine ⟨ha.shardId, by simp [ha.chunks], ?_⟩
      simp only [committedChunks_append, committedChunks_published, committedChunks_committed_cons,
        List.nil_append]
      exact ha.engine.commit c
  · exact hnil rfl rfl rfl (List.filterMap_eq_nil_iff.2 fun x hx => by
      rcases ho x hx with ⟨_, rfl⟩ | ⟨_, rfl⟩ <;> rfl)

/-- **Every run appends and commits what it outputs as committed.** -/
theorem Appends.run {calls : List Call} {os : List Output} (h : s.run H G calls = .ok (s', os)) :
    Appends G s s' os :=
  runSteps_trace_nil (Q := Appends G s) (fun _ _ _ _ _ ha hs => ha.step hs) (Appends.refl s) h

end ShardProposer

/-! ## The block proposer -/

namespace BlockProposer

variable {β : Type} {H : Hasher} {B : BlockEngine β} {t t' : Task β}

/-- The blocks the outputs commit, in order. -/
def committedBlocks (os : List Output) : List Block :=
  os.filterMap fun
    | .committed _ b => some b
    | _ => none

@[simp] theorem committedBlocks_append (os o : List Output) :
    committedBlocks (os ++ o) = committedBlocks os ++ committedBlocks o :=
  List.filterMap_append _ _ _

@[simp] theorem committedBlocks_received (cs : List ShardChunk) :
    committedBlocks (cs.map .received) = [] := by
  induction cs <;> simp_all [committedBlocks]

@[simp] theorem committedBlocks_finish (s : BlockProposer β) (height : Height) (round : Int)
    (now : UInt64) : committedBlocks (finish H B s height round now).2 = [] :=
  rfl

@[simp] theorem finish_engine (s : BlockProposer β) (height : Height) (round : Int)
    (now : UInt64) : (finish H B s height round now).1.proposer.engine = s.engine :=
  rfl

/-- The parent hash of a block built on the chain `bs`. -/
def lastBlockHash (bs : List Block) : Bytes :=
  match bs.getLast? with
  | some b => b.hash
  | none => genesisParentHash

/-- **A step commits to the engine the blocks it outputs as committed**, in order;
nothing else changes the engine. -/
theorem Task.engine_step {e : Event} {o : List Output} (h : t.step H B e = .ok (t', o)) :
    t'.proposer.engine = (committedBlocks o).foldl B.commitBlock t.proposer.engine := by
  rcases Task.step_cases h with ⟨rfl, rfl⟩ | ⟨-, -, -, -, rfl, rfl⟩ |
    ⟨height, round, r, now, s, -, -, h1, hfin⟩ | ⟨height, round, now, -, -, hfin⟩ |
    ⟨fp, s, v, -, -, h1, rfl, rfl⟩ | ⟨height, round, value, s, ob, -, -, h1, rfl, rfl⟩ |
    ⟨-, -, -, -, rfl, ho⟩
  · rfl
  · rfl
  · have he := (tick_proposedBlocks h1).2.1
    rcases hfin with ⟨-, rfl, rfl⟩ | ⟨-, rfl, rfl⟩ <;> simpa using he
  · obtain ⟨rfl, rfl⟩ := Prod.mk.inj hfin
    rfl
  · rcases (addProposedValue_cases h1).2 with ⟨-, -, -, -, rfl⟩ | ⟨-, rfl⟩ <;> rfl
  · rcases decide_cases h1 with ⟨-, rfl, rfl⟩ | ⟨-, b, -, -, rfl, rfl⟩ <;> rfl
  · rw [show committedBlocks o = [] from List.filterMap_eq_nil_iff.2 fun x hx => by
      rcases ho x hx with ⟨_, rfl⟩ | ⟨_, rfl⟩ <;> rfl]
    rfl

/-- **A run commits to the engine the blocks it outputs as committed**, in order. -/
theorem Task.engine_run {events : List Event} {os : List Output}
    (h : Task.run H B t events = .ok (t', os)) :
    t'.proposer.engine = (committedBlocks os).foldl B.commitBlock t.proposer.engine :=
  runSteps_trace_nil (Q := fun t₁ os₁ =>
      t₁.proposer.engine = (committedBlocks os₁).foldl B.commitBlock t.proposer.engine)
    (fun _ _ _ _ _ hq hs => by
      dsimp only at hq ⊢
      rw [Task.engine_step hs, hq, committedBlocks_append, List.foldl_append])
    rfl h

/-- A `decide` step commits the block it publishes, if any, and nothing else. -/
theorem Task.committedBlocks_decide {height : Height} {round : Int} {value : ShardHash}
    {o : List Output} (h : t.step H B (.decide height round value) = .ok (t', o)) :
    ∃ ob : Option Block, committedBlocks o = ob.toList := by
  rcases Task.step_cases h with ⟨-, rfl⟩ | ⟨_, _, _, he, -⟩ | ⟨_, _, _, _, _, _, he, -⟩ |
    ⟨_, _, _, _, he, -⟩ | ⟨_, _, _, _, he, -⟩ | ⟨_, _, _, _, ob, -, -, -, -, rfl⟩ |
    ⟨_, _, _, he, -⟩
  · exact ⟨none, rfl⟩
  all_goals first
    | cases he
    | exact ⟨ob, by cases ob <;> rfl⟩

@[simp] theorem ofBlocks_commitBlock (bs : List Block) (b : Block) :
    BlockEngine.ofBlocks.commitBlock bs b = bs ++ [b] :=
  rfl

/-- Over the block engine of the committed blocks, committing appends. -/
theorem foldl_commitBlock_ofBlocks (bs : List Block) :
    ∀ bs' : List Block, bs'.foldl BlockEngine.ofBlocks.commitBlock bs = bs ++ bs'
  | [] => (List.append_nil bs).symm
  | b :: bs' => by
    rw [List.foldl_cons, ofBlocks_commitBlock, foldl_commitBlock_ofBlocks (bs ++ [b]) bs',
      List.append_assoc, List.singleton_append]

end BlockProposer

/-! ## The chain law -/

variable {ε β : Type}

/-- A chunk in a list of one committed output at most is that output. -/
theorem eq_singleton_of_mem_toList {α : Type} {a : α} {o : Option α} {l : List α}
    (hl : l = o.toList) (ha : a ∈ l) : l = [a] := by
  subst hl
  cases o with
  | none => simp at ha
  | some x => simp_all

/-- **Own decisions extend the chain.** In every run of a new shard proposer, the chunks
appended are those committed, in order, and those are the chunks its engine is given to
commit, in order. A chunk the node proposed itself at a height and then committed with
no commit in between is at that height, names as parent the hash of the chunk committed
just before it (`vec![0, 32]` if none), carries the hash of its header, and is appended
right after that chunk. The same holds for blocks over the block engine of the committed
blocks, whose `get_last_block` is the block committed last: its blocks are the blocks
committed, in order, and a block the node proposed at a height and then committed with no
commit in between is at that height and names the hash of the block committed just
before it. -/
theorem own_decisions_chain (H : Hasher) :
    (∀ (G : ShardEngine ε) address shardId engine txDecision calls s os,
      (ShardProposer.new address shardId engine txDecision).run H G calls = .ok (s, os) →
      s.chunks = ShardProposer.committedChunks os ∧
      G.Commits shardId engine (ShardProposer.committedChunks os) s.engine) ∧
    (∀ (G : ShardEngine ε) address shardId engine txDecision pre s₁ os₁ height round now mid
        s₂ os₂ height' round' value s₃ o₃ c,
      (ShardProposer.new address shardId engine txDecision).run H G pre = .ok (s₁, os₁) →
      (s₁.proposeValue H G height round now).1.run H G mid = .ok (s₂, os₂) →
      ShardProposer.committedChunks os₂ = [] →
      s₂.step H G (.decide height' round' value) = .ok (s₃, o₃) →
      (s₁.proposeValue H G height round now).2.shardChunk = some c →
      c ∈ ShardProposer.committedChunks o₃ →
      ∃ header, c.header = some header ∧ header.height = some height ∧
        header.parentHash = ShardProposer.lastHash (ShardProposer.committedChunks os₁) ∧
        c.hash = H.shardHeader header ∧ s₃.chunks = ShardProposer.committedChunks os₁ ++ [c]) ∧
    (∀ address shardId numShards (bs : List Block) events t os,
      BlockProposer.Task.run H BlockEngine.ofBlocks
        ⟨BlockProposer.new address shardId numShards bs, .idle⟩ events = .ok (t, os) →
      t.proposer.engine = bs ++ BlockProposer.committedBlocks os) ∧
    (∀ address shardId numShards (bs : List Block) pre t₁ os₁ height round e t₂ o₂ p mid t₃ os₃
        height' round' value t₄ o₄ b,
      BlockProposer.Task.run H BlockEngine.ofBlocks
        ⟨BlockProposer.new address shardId numShards bs, .idle⟩ pre = .ok (t₁, os₁) →
      t₁.phase = .collecting height round →
      t₁.step H BlockEngine.ofBlocks e = .ok (t₂, o₂) → .proposed p ∈ o₂ →
      BlockProposer.Task.run H BlockEngine.ofBlocks t₂ mid = .ok (t₃, os₃) →
      BlockProposer.committedBlocks os₃ = [] →
      t₃.step H BlockEngine.ofBlocks (.decide height' round' value) = .ok (t₄, o₄) →
      p.block = some b → b ∈ BlockProposer.committedBlocks o₄ →
      ∃ header, b.header = some header ∧ header.height = some height ∧
        header.parentHash = BlockProposer.lastBlockHash (bs ++ BlockProposer.committedBlocks os₁) ∧
        b.hash = H.blockHeader header ∧
        t₄.proposer.engine = bs ++ BlockProposer.committedBlocks os₁ ++ [b]) := by
  refine ⟨fun G _ _ _ _ _ _ _ h => ?_, fun G _ _ _ _ pre s₁ os₁ height round now mid s₂ os₂
    height' round' value s₃ o₃ c h₁ h₂ hmid h₃ hc hmem => ?_,
    fun _ _ _ bs _ _ _ h => ?_, fun _ _ _ bs pre t₁ os₁ height round e t₂ o₂ p mid t₃ os₃
    height' round' value t₄ o₄ b h₁ hp h₂ hm h₃ hmid h₄ hb hmem => ?_⟩
  · have ha := ShardProposer.Appends.run h
    exact ⟨by simpa using ha.chunks, ha.engine⟩
  · have ha₁ := (ShardProposer.Appends.run h₁).chunks
    have ha₂ := (ShardProposer.Appends.run h₂).chunks
    have ha₃ := ((ShardProposer.Appends.refl s₂).step h₃).chunks
    obtain ⟨oc, -, ho⟩ := ShardProposer.committedChunks_decide h₃
    rw [ShardProposer.proposeValue_snd] at hc
    simp only [FullProposal.shardChunk, Option.some.injEq] at hc
    subst hc
    have hc₁ : s₁.chunks = ShardProposer.committedChunks os₁ := by
      simpa [ShardProposer.new] using ha₁
    refine ⟨_, rfl, rfl, ?_, rfl, ?_⟩
    · rw [ShardProposer.ownHeader, ShardProposer.parentHash_eq_lastHash, hc₁]
    · simpa [ha₂, hmid, hc₁, eq_singleton_of_mem_toList ho hmem] using ha₃
  · simpa [BlockProposer.new, BlockProposer.foldl_commitBlock_ofBlocks]
      using BlockProposer.Task.engine_run h
  · have he₁ := BlockProposer.Task.engine_run h₁
    simp only [BlockProposer.new, BlockProposer.foldl_commitBlock_ofBlocks] at he₁
    obtain ⟨s, now, hs, rfl, rfl⟩ := BlockProposer.Task.proposed_of_collecting hp h₂ hm
    have he₃ := BlockProposer.Task.engine_run h₃
    have he₄ := BlockProposer.Task.engine_step h₄
    obtain ⟨ob, ho⟩ := BlockProposer.Task.committedBlocks_decide h₄
    rw [BlockProposer.buildProposal_snd] at hb
    simp only [FullProposal.block, Option.some.injEq] at hb
    subst hb
    refine ⟨_, rfl, rfl, ?_, rfl, ?_⟩
    · simp only [BlockProposer.ownHeader, hs, he₁]
      rfl
    · rw [he₄, eq_singleton_of_mem_toList ho hmem, he₃, hmid]
      simp [hs, he₁]

theorem decided_peer_chunks_break_chain :
    ((ShardProposer.new [] 1 () true).run Hasher.zero ShardEngine.unit
        [.addProposedValue ⟨some ⟨1, 1⟩, 0,
          some (.shard ⟨some ⟨[0, 32], 0, some ⟨1, 1⟩, []⟩, [7], [], none⟩), []⟩,
         .decide ⟨1, 1⟩ 0 ⟨[7], 1⟩,
         .addProposedValue ⟨some ⟨1, 2⟩, 0,
          some (.shard ⟨some ⟨[9], 0, some ⟨1, 2⟩, []⟩, [8], [], none⟩), []⟩,
         .decide ⟨1, 2⟩ 0 ⟨[8], 1⟩]).map
      (fun r => r.1.chunks.map fun c => (c.hash, c.header.map (·.parentHash))) =
      .ok [([7], some [0, 32]), ([8], some [9])] := by
  decide

/-- **The hash of a proposed block does not depend on its chunks.** `propose_value` sets
`shard_headers_hash` to an empty vector, so two proposals built from the same state at
the same height, round and time have the same `shard_hash()` whatever chunks each
collected. -/
theorem block_hash_ignores_chunks (H : Hasher) (B : BlockEngine β) (s : BlockProposer β)
    (height : Height) (round : Int) (now : UInt64) (cs cs' : List ShardChunk) :
    (s.buildProposal H B height round now cs).2.shardHash =
      (s.buildProposal H B height round now cs').2.shardHash ∧
    (s.buildProposal H B height round now cs).2.block.map (·.shardChunks) = some cs ∧
    (s.buildProposal H B height round now cs').2.block.map (·.shardChunks) = some cs' :=
  ⟨rfl, rfl, rfl⟩

end Snapchain
