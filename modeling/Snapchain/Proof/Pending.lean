import Snapchain.Proof.Tables

/-!
# The buckets of `pending_chunks`

`pending_chunks[k]` is what the task has received for block number `k` since the last
`decide` that evicted `k`: `bucketFrom` reads that off the task's outputs, a chunk
appended at each `received`, the bucket emptied at each `committed` of height `k`.

* `Buckets.run`: in every run of the block proposer's task, each bucket is that list
  (in arrival order, none empty); `proposed_of_step`: every block `propose_value` builds
  carries the bucket of its height as it stands; `proposed_of_collecting`: it is built at
  the height the collection was called for, and a collection that ends proposes it.
* `proposal_chunks_permute`: a collection that receives the same chunks in another
  order builds a block with the same chunks, in that other order.
* `duplicate_chunk_fills_block`: a chunk received twice counts twice towards
  `num_shards`; the collection ends with it listed twice and a shard left out.
* `decide_evicts_only`: `decide` evicts the decided key and the decided height's bucket,
  nothing else; later, an entry stays until its key is decided, and the bucket of a
  decided block number holds just what was received after the decide.
-/

namespace Snapchain.BlockProposer

variable {β : Type} {H : Hasher} {B : BlockEngine β}

/-- The block number a chunk is filed under, if it has one. -/
def chunkBlockNumber (c : ShardChunk) : Option UInt64 :=
  c.header.bind fun h => h.height.map (·.blockNumber)

theorem chunkBlockNumber_eq {c : ShardChunk} {header : ShardHeader} {height : Height}
    (hh : c.header = some header) (hg : header.height = some height) :
    chunkBlockNumber c = some height.blockNumber := by
  simp [chunkBlockNumber, hh, hg]

theorem chunkBlockNumber_eq_some {c : ShardChunk} {k : UInt64} :
    chunkBlockNumber c = some k ↔ ∃ header height, c.header = some header ∧
      header.height = some height ∧ height.blockNumber = k := by
  cases hh : c.header with
  | none => simp [chunkBlockNumber, hh]
  | some header => cases hg : header.height <;> simp [chunkBlockNumber, hh, hg]

/-- One output's effect on the bucket of block number `k`. -/
def bucketStep (k : UInt64) (acc : List ShardChunk) : Output → List ShardChunk
  | .received c => if chunkBlockNumber c = some k then acc ++ [c] else acc
  | .committed h _ => if h.blockNumber = k then [] else acc
  | _ => acc

/-- The bucket of block number `k` after the outputs `os`, from the bucket `init`. -/
def bucketFrom (init : List ShardChunk) (k : UInt64) (os : List Output) : List ShardChunk :=
  os.foldl (bucketStep k) init

/-- Every chunk of a bucket has its block number. -/
theorem bucketFrom_mem {k : UInt64} :
    ∀ {os : List Output} {init : List ShardChunk}, (∀ c ∈ init, chunkBlockNumber c = some k) →
      ∀ c ∈ bucketFrom init k os, chunkBlockNumber c = some k
  | [], _, hi => hi
  | x :: os, init, hi => by
    show ∀ c ∈ bucketFrom (bucketStep k init x) k os, chunkBlockNumber c = some k
    refine bucketFrom_mem (fun c hc => ?_)
    cases x with
    | received c' =>
      simp only [bucketStep] at hc
      split_ifs at hc with hx
      · rcases List.mem_append.1 hc with hc | hc
        · exact hi c hc
        · rw [List.mem_singleton.1 hc]; exact hx
      · exact hi c hc
    | committed h b =>
      simp only [bucketStep] at hc
      split_ifs at hc
      · simp at hc
      · exact hi c hc
    | _ => exact hi c hc

/-- A bucket as the map stores it: absent when empty. -/
def stored (l : List ShardChunk) : Option (List ShardChunk) := if l = [] then none else some l

@[simp] theorem stored_getD (l : List ShardChunk) : (stored l).getD [] = l := by
  unfold stored; split_ifs with h <;> simp [h]

theorem stored_snoc (l : List ShardChunk) (c : ShardChunk) : stored (l ++ [c]) = some (l ++ [c]) := by
  simp [stored]

/-- The buckets of `p` are those the outputs give from the buckets of `m`. -/
def Buckets (m : BTreeMap UInt64 (List ShardChunk)) (p : BlockProposer β) (os : List Output) :
    Prop :=
  ∀ k, p.pendingChunks.get k = stored (bucketFrom ((m.get k).getD []) k os)

theorem bucketFrom_append (init : List ShardChunk) (k : UInt64) (os o : List Output) :
    bucketFrom init k (os ++ o) = o.foldl (bucketStep k) (bucketFrom init k os) :=
  List.foldl_append _ _ _ _

/-- Outputs that neither receive nor commit leave every bucket as it is. -/
theorem foldl_bucketStep_quiet (k : UInt64) (acc : List ShardChunk) {o : List Output}
    (ho : ∀ x ∈ o, (∀ c, x ≠ .received c) ∧ ∀ h b, x ≠ .committed h b) :
    o.foldl (bucketStep k) acc = acc := by
  induction o generalizing acc with
  | nil => rfl
  | cons x o ih =>
    rw [List.foldl_cons, ih _ (fun y hy => ho y (List.mem_cons_of_mem _ hy))]
    obtain ⟨h1, h2⟩ := ho x (List.mem_cons_self _ _)
    cases x <;> simp_all [bucketStep]

theorem Buckets.quiet {m : BTreeMap UInt64 (List ShardChunk)} {p p' : BlockProposer β}
    {os o : List Output} (hb : Buckets m p os) (hp : p'.pendingChunks = p.pendingChunks)
    (ho : ∀ x ∈ o, (∀ c, x ≠ .received c) ∧ ∀ h b, x ≠ .committed h b) :
    Buckets m p' (os ++ o) := by
  intro k
  rw [hp, hb k, bucketFrom_append, foldl_bucketStep_quiet k _ ho]

theorem finish_quiet (s : BlockProposer β) (height : Height) (round : Int) (now : UInt64) :
    (finish H B s height round now).1.proposer.pendingChunks = s.pendingChunks ∧
      ∀ x ∈ (finish H B s height round now).2,
        (∀ c, x ≠ .received c) ∧ ∀ h b, x ≠ .committed h b := by
  simp [finish]

/-- Receiving a chunk appends it to the bucket of its block number. -/
theorem Buckets.tick {m : BTreeMap UInt64 (List ShardChunk)} {p p' : BlockProposer β}
    {os : List Output} (hb : Buckets m p os) {r : Option ShardChunk} (h : p.tick r = .ok p') :
    Buckets m p' (os ++ r.toList.map .received) := by
  rcases tick_ok h with ⟨rfl, rfl⟩ | ⟨c, rfl, hf⟩
  · simpa using hb
  · obtain ⟨header, height, hh, hg, rfl⟩ := fileChunk_ok hf
    intro k
    simp only [fileAt_get, Option.toList_some, List.map_cons, List.map_nil, bucketFrom_append,
      List.foldl_cons, List.foldl_nil, bucketStep, chunkBlockNumber_eq hh hg, Option.some.injEq]
    by_cases hk : k = height.blockNumber
    · subst hk; simp [hb height.blockNumber, stored_snoc]
    · simp [hk, Ne.symm hk, hb k]

/-- **Every step keeps the buckets those of the outputs.** -/
theorem Buckets.step {m : BTreeMap UInt64 (List ShardChunk)} {t t' : Task β} {os o : List Output}
    {e : Event} (hb : Buckets m t.proposer os) (h : t.step H B e = .ok (t', o)) :
    Buckets m t'.proposer (os ++ o) := by
  rcases Task.step_cases h with ⟨rfl, rfl⟩ | ⟨-, -, -, -, rfl, rfl⟩ |
    ⟨height, round, r, now, s, -, -, h1, hfin⟩ | ⟨height, round, now, -, -, hfin⟩ |
    ⟨fp, s, v, -, -, h1, rfl, rfl⟩ | ⟨height, round, value, s, ob, -, -, h1, rfl, rfl⟩ |
    ⟨-, -, -, -, rfl, ho⟩
  · simpa using hb
  · simpa using hb
  · have h2 := hb.tick h1
    rcases hfin with ⟨-, rfl, rfl⟩ | ⟨-, rfl, rfl⟩
    · rw [← List.append_assoc]
      exact h2.quiet (finish_quiet s height round now).1 (finish_quiet s height round now).2
    · exact h2
  · obtain ⟨rfl, rfl⟩ := Prod.mk.inj hfin
    exact hb.quiet (finish_quiet _ height round now).1 (finish_quiet _ height round now).2
  · rcases (addProposedValue_cases h1).2 with ⟨-, -, -, -, rfl⟩ | ⟨-, rfl⟩ <;>
      exact hb.quiet rfl (by simp)
  · rcases decide_cases h1 with ⟨-, rfl, rfl⟩ | ⟨p, b, -, -, rfl, rfl⟩
    · simpa using hb
    · intro k
      simp only [BTreeMap.get_remove, bucketFrom_append, List.foldl_cons, List.foldl_nil,
        bucketStep]
      by_cases hk : k = height.blockNumber
      · subst hk; simp [stored]
      · simp [hk, Ne.symm hk, hb k]
  · exact hb.quiet rfl (fun x hx => by
      rcases ho x hx with ⟨b, rfl⟩ | ⟨err, rfl⟩ <;> simp)

/-- From a task with no empty bucket, the buckets after a run are those its outputs give. -/
theorem Buckets.run {t t' : Task β} {events : List Event} {os : List Output}
    (hm : ∀ k, t.proposer.pendingChunks.get k ≠ some [])
    (h : Task.run H B t events = .ok (t', os)) : Buckets t.proposer.pendingChunks t'.proposer os :=
  runSteps_trace_nil (Q := fun t os => Buckets _ t.proposer os)
    (fun _ _ _ _ _ hq hs => hq.step hs) (fun k => by
      have := hm k
      cases hk : t.proposer.pendingChunks.get k <;> simp_all [bucketFrom, stored]) h

/-- The proposal `finish` builds carries the bucket of its block number. -/
theorem Buckets.finish_proposal {m : BTreeMap UInt64 (List ShardChunk)} {s : BlockProposer β}
    {os : List Output} (hb : Buckets m s os) {height : Height} {round : Int} {now : UInt64}
    {p : FullProposal} (hp : .proposed p ∈ (finish H B s height round now).2) :
    ∃ height' b, p.height = some height' ∧ p.proposedValue = some (.block b) ∧
      b.shardChunks = bucketFrom ((m.get height'.blockNumber).getD []) height'.blockNumber
        (os ++ (finish H B s height round now).2) := by
  have hq := (finish_quiet (H := H) (B := B) s height round now).2
  simp only [finish, List.mem_singleton, Output.proposed.injEq] at hp
  subst hp
  refine ⟨height, _, rfl, rfl, ?_⟩
  show (s.pendingChunks.get height.blockNumber).getD [] = _
  rw [bucketFrom_append, foldl_bucketStep_quiet _ _ hq, hb height.blockNumber, stored_getD]

/-- A proposal a step makes carries the bucket of its block number. -/
theorem proposed_of_step {m : BTreeMap UInt64 (List ShardChunk)} {t t' : Task β}
    {os o : List Output} {e : Event} (hb : Buckets m t.proposer os)
    (h : t.step H B e = .ok (t', o)) {p : FullProposal} (hp : .proposed p ∈ o) :
    ∃ height b, p.height = some height ∧ p.proposedValue = some (.block b) ∧
      b.shardChunks = bucketFrom ((m.get height.blockNumber).getD []) height.blockNumber (os ++ o) := by
  rcases Task.step_cases h with ⟨-, rfl⟩ | ⟨-, -, -, -, -, rfl⟩ |
    ⟨height, round, r, now, s, -, -, h1, hfin⟩ | ⟨height, round, now, -, -, hfin⟩ |
    ⟨_, _, _, -, -, -, -, rfl⟩ | ⟨_, _, _, _, ob, -, -, -, -, rfl⟩ | ⟨-, -, -, -, -, ho⟩
  · simp at hp
  · simp at hp
  · rcases hfin with ⟨-, -, rfl⟩ | ⟨-, -, rfl⟩
    · rcases List.mem_append.1 hp with hp | hp
      · simp at hp
      · rw [← List.append_assoc]
        exact (hb.tick h1).finish_proposal hp
    · simp at hp
  · obtain ⟨-, rfl⟩ := Prod.mk.inj hfin
    exact hb.finish_proposal hp
  · simp at hp
  · cases ob <;> simp at hp
  · rcases ho _ hp with ⟨_, h⟩ | ⟨_, h⟩ <;> cases h

/-- In every run of a new proposer's task, the bucket of each block number is the one its
outputs give from nothing. -/
theorem pendingChunks_run {address : Bytes} {shardId numShards : UInt32} {engine : β}
    {events : List Event} {t : Task β} {os : List Output}
    (h : Task.run H B ⟨BlockProposer.new address shardId numShards engine, .idle⟩ events =
      .ok (t, os)) :
    ∀ k, t.proposer.pendingChunks.get k = stored (bucketFrom [] k os) := fun k => by
  simpa [BlockProposer.new] using Buckets.run (by simp [BlockProposer.new]) h k

/-! ## The end of a collection -/

theorem Task.step_deadline {t : Task β} {height : Height} {round : Int}
    (hp : t.phase = .collecting height round) (now : UInt64) :
    t.step H B (.deadline now) = .ok (finish H B t.proposer height round now) := by
  obtain ⟨s, phase⟩ := t
  subst hp
  rfl

/-- **What a collection proposes.** A proposal that a step of the collection of a
`propose_value` at `height` makes is the block that `propose_value` builds at `height`
from the bucket of its block number, over the engine as it was; the step ends the
collection. -/
theorem Task.proposed_of_collecting {t t' : Task β} {height : Height} {round : Int}
    (hp : t.phase = .collecting height round) {e : Event} {o : List Output}
    (h : t.step H B e = .ok (t', o)) {p : FullProposal} (hm : .proposed p ∈ o) :
    ∃ s now, s.engine = t.proposer.engine ∧ t' = (finish H B s height round now).1 ∧
      p = (s.buildProposal H B height round now (s.collectedChunks height.blockNumber)).2 := by
  rcases Task.step_cases h with ⟨-, rfl⟩ | ⟨-, -, -, -, -, rfl⟩ |
    ⟨height', round', r, now, s, hp', -, h1, hfin⟩ | ⟨height', round', now, hp', -, hfin⟩ |
    ⟨-, -, -, hi, -⟩ | ⟨-, -, -, -, -, hi, -⟩ | ⟨-, -, hi, -⟩
  · simp at hm
  · simp at hm
  · obtain ⟨rfl, rfl⟩ : height' = height ∧ round' = round := by simpa [hp] using hp'.symm
    rcases hfin with ⟨-, rfl, rfl⟩ | ⟨-, -, rfl⟩
    · refine ⟨s, now, (tick_proposedBlocks h1).2.1, rfl, ?_⟩
      simpa [finish] using hm
    · cases r <;> simp at hm
  · obtain ⟨rfl, rfl⟩ : height' = height ∧ round' = round := by simpa [hp] using hp'.symm
    obtain ⟨rfl, rfl⟩ := Prod.mk.inj hfin
    exact ⟨t.proposer, now, rfl, rfl, by simpa [finish] using hm⟩
  all_goals simp [hp] at hi

/-- **A collection that ends proposes.** A step of the collection of a `propose_value`
that leaves the task idle makes a proposal. -/
theorem Task.proposes_of_idle {t t' : Task β} {height : Height} {round : Int}
    (hp : t.phase = .collecting height round) {e : Event} {o : List Output}
    (h : t.step H B e = .ok (t', o)) (hi : t'.phase = .idle) : ∃ p, .proposed p ∈ o := by
  rcases Task.step_cases h with ⟨rfl, -⟩ | ⟨_, _, hi', -⟩ |
    ⟨_, _, r, now, s, -, -, -, hfin⟩ | ⟨_, _, now, -, -, hfin⟩ |
    ⟨_, _, _, hi', -⟩ | ⟨_, _, _, _, _, hi', -⟩ | ⟨_, _, hi', -⟩
  · simp [hp] at hi
  · simp [hp] at hi'
  · rcases hfin with ⟨-, -, rfl⟩ | ⟨-, rfl, -⟩
    · exact ⟨_, List.mem_append_right _ (List.mem_singleton_self _)⟩
    · simp at hi
  · exact ⟨_, by rw [(Prod.mk.inj hfin).2]; exact List.mem_singleton_self _⟩
  all_goals simp [hp] at hi'

/-! ## A collection keeps the order of arrival -/

/-- The events of one `propose_value` that receives the chunks `cs`, one a tick, and then
reaches its deadline. -/
def collection (height : Height) (round : Int) (cs : List ShardChunk) (now : UInt64) :
    List Event :=
  .proposeValue height round :: (cs.map fun c => .tick (some c) now) ++ [.deadline now]

/-- The chunks of each block that the outputs propose. -/
def chunksProposed (os : List Output) : List (List ShardChunk) :=
  os.filterMap fun
    | .proposed p => p.block.map (·.shardChunks)
    | _ => none

/-- A tick of a collection at `height` that receives a chunk of its block number: the
chunk goes onto the bucket, and the collection ends if the bucket is full. -/
theorem step_tick_collecting {s : BlockProposer β} {height : Height} (round : Int)
    (now : UInt64) {c : ShardChunk} {acc : List ShardChunk}
    (hc : chunkBlockNumber c = some height.blockNumber)
    (hs : s.pendingChunks.get height.blockNumber = stored acc) :
    ∃ s₁ : BlockProposer β, s₁.numShards = s.numShards ∧
      s₁.pendingChunks.get height.blockNumber = some (acc ++ [c]) ∧
      Task.step H B ⟨s, .collecting height round⟩ (.tick (some c) now) =
        if (acc ++ [c]).length = s.numShards.toNat then
          .ok ((finish H B s₁ height round now).1, .received c :: (finish H B s₁ height round now).2)
        else .ok (⟨s₁, .collecting height round⟩, [.received c]) := by
  obtain ⟨header, hgt, hh, hg, hk⟩ := chunkBlockNumber_eq_some.1 hc
  have hget : (fileAt s.pendingChunks hgt.blockNumber c).get height.blockNumber =
      some (acc ++ [c]) := by
    simp [hk, hs]
  refine ⟨{ s with pendingChunks := fileAt s.pendingChunks hgt.blockNumber c }, rfl, hget, ?_⟩
  simp only [Task.step, tick, fileChunk_eq hh hg, ok_bind, collected, hget, beq_iff_eq]
  split_ifs <;> rfl

/-- Ticks that each receive a chunk of the requested block number, while the bucket stays
short of `num_shards`, file them in order and keep collecting. -/
theorem run_ticks_collecting {height : Height} (round : Int) (now : UInt64) :
    ∀ (cs acc : List ShardChunk) {s : BlockProposer β},
      (∀ c ∈ cs, chunkBlockNumber c = some height.blockNumber) →
      (acc ++ cs).length < s.numShards.toNat →
      s.pendingChunks.get height.blockNumber = stored acc →
      ∃ s' : BlockProposer β, s'.numShards = s.numShards ∧
        s'.pendingChunks.get height.blockNumber = stored (acc ++ cs) ∧
        Task.run H B ⟨s, .collecting height round⟩ (cs.map fun c => .tick (some c) now) =
          .ok (⟨s', .collecting height round⟩, cs.map .received)
  | [], acc, s, _, _, hs => ⟨s, rfl, by simpa using hs, rfl⟩
  | c :: cs, acc, s, hc, hn, hs => by
    obtain ⟨s₁, hnum, hget, hstep⟩ :=
      step_tick_collecting (H := H) (B := B) round now (hc c (List.mem_cons_self _ _)) hs
    have hshort : (acc ++ [c]).length ≠ s.numShards.toNat := by
      simp only [List.length_append, List.length_cons, List.length_nil] at hn ⊢; omega
    rw [if_neg hshort] at hstep
    obtain ⟨s', hnum', hget', hrun⟩ := run_ticks_collecting round now cs (acc ++ [c]) (s := s₁)
      (fun c' hc' => hc c' (List.mem_cons_of_mem _ hc')) (by simpa [hnum] using hn)
      (by rw [hget, stored_snoc])
    exact ⟨s', hnum'.trans hnum, by simpa using hget',
      runSteps_cons.2 ⟨_, _, _, hstep, hrun, rfl⟩⟩

@[simp] theorem chunksProposed_finish (s : BlockProposer β) (height : Height) (round : Int)
    (now : UInt64) :
    chunksProposed (finish H B s height round now).2 = [s.collectedChunks height.blockNumber] :=
  rfl

@[simp] theorem chunksProposed_append (os o : List Output) :
    chunksProposed (os ++ o) = chunksProposed os ++ chunksProposed o :=
  List.filterMap_append _ _ _

@[simp] theorem chunksProposed_received_cons (c : ShardChunk) (os : List Output) :
    chunksProposed (.received c :: os) = chunksProposed os :=
  rfl

@[simp] theorem chunksProposed_received (cs : List ShardChunk) :
    chunksProposed (cs.map .received) = [] := by
  induction cs <;> simp_all [chunksProposed]

/-- The deadline ends a collection; once it has ended, the deadline does nothing. -/
theorem run_deadline (s : BlockProposer β) (height : Height) (round : Int) (now : UInt64) :
    runSteps (Task.step H B) ⟨s, .collecting height round⟩ [.deadline now] =
      .ok ((finish H B s height round now).1, (finish H B s height round now).2 ++ []) ∧
    runSteps (Task.step H B) (finish H B s height round now).1 [.deadline now] =
      .ok ((finish H B s height round now).1, []) :=
  ⟨rfl, rfl⟩

/-- **A collection proposes the chunks it received, in the order they arrived.** From an
empty bucket, a collection that receives at most `num_shards` chunks of the requested
block number proposes one block, and its `shard_chunks` are those chunks. -/
theorem collection_proposes {s : BlockProposer β} {height : Height} {round : Int}
    {now : UInt64} {cs : List ShardChunk} (hc : ∀ c ∈ cs, chunkBlockNumber c = some height.blockNumber)
    (hn : cs.length ≤ s.numShards.toNat) (hs : s.pendingChunks.get height.blockNumber = none) :
    (Task.run H B ⟨s, .idle⟩ (collection height round cs now)).map (chunksProposed ·.2) =
      .ok [cs] := by
  have hstart : Task.step H B ⟨s, .idle⟩ (.proposeValue height round) =
      .ok (⟨s, .collecting height round⟩, []) := rfl
  rcases List.eq_nil_or_concat cs with rfl | ⟨init, c, rfl⟩
  case inl =>
    rw [collection, List.map_nil, List.cons_append, List.nil_append, Task.run,
      runSteps_cons_of_ok hstart, (run_deadline s height round now).1]
    simp [Except.map, collectedChunks, hs]
  case inr =>
    rw [List.concat_eq_append] at hc hn ⊢
    obtain ⟨s', hnum, hget, hrun⟩ := run_ticks_collecting (H := H) (B := B) round now init []
      (s := s) (fun c hc' => hc c (by simp [hc']))
      (by simp only [List.length_append, List.length_singleton] at hn; simpa using hn)
      (by simp [stored, hs])
    obtain ⟨s₁, -, hget₁, hstep⟩ := step_tick_collecting (H := H) (B := B) round now
      (hc c (by simp)) hget
    have hev : collection height round (init ++ [c]) now = .proposeValue height round ::
        ((init.map fun c => .tick (some c) now) ++ [.tick (some c) now, .deadline now]) := by
      simp [collection]
    rw [hev, Task.run, runSteps_cons_of_ok hstart, runSteps_append_of_ok hrun]
    split_ifs at hstep
    · rw [runSteps_cons_of_ok hstep, (run_deadline s₁ height round now).2]
      simp [Except.map, collectedChunks, hget₁]
    · rw [runSteps_cons_of_ok hstep, (run_deadline s₁ height round now).1]
      simp [Except.map, collectedChunks, hget₁]

/-- **A collection keeps the order of arrival.** Two collections from an empty bucket that
receive the same chunks of the requested block number, at most `num_shards` of them, in
two orders, propose blocks whose `shard_chunks` are those two orders. -/
theorem proposal_chunks_permute {s : BlockProposer β} {height : Height} {round : Int}
    {now : UInt64} {cs cs' : List ShardChunk} (hp : cs.Perm cs')
    (hc : ∀ c ∈ cs, chunkBlockNumber c = some height.blockNumber)
    (hn : cs.length ≤ s.numShards.toNat) (hs : s.pendingChunks.get height.blockNumber = none) :
    (Task.run H B ⟨s, .idle⟩ (collection height round cs now)).map (chunksProposed ·.2) =
      .ok [cs] ∧
    (Task.run H B ⟨s, .idle⟩ (collection height round cs' now)).map (chunksProposed ·.2) =
      .ok [cs'] :=
  ⟨collection_proposes hc hn hs,
   collection_proposes (fun c h => hc c (hp.mem_iff.2 h)) (hp.length_eq ▸ hn) hs⟩

theorem proposal_chunks_permute_two_shards :
    (Task.run Hasher.zero BlockEngine.unit ⟨BlockProposer.new [] 0 2 (), .idle⟩
        (collection ⟨0, 1⟩ 0 [chunkAt 1 1, chunkAt 2 1] 0)).map (chunksProposed ·.2) =
      .ok [[chunkAt 1 1, chunkAt 2 1]] ∧
    (Task.run Hasher.zero BlockEngine.unit ⟨BlockProposer.new [] 0 2 (), .idle⟩
        (collection ⟨0, 1⟩ 0 [chunkAt 2 1, chunkAt 1 1] 0)).map (chunksProposed ·.2) =
      .ok [[chunkAt 2 1, chunkAt 1 1]] :=
  proposal_chunks_permute (List.Perm.swap _ _ _) (by decide) (by decide) rfl

/-- **A collection ends when its bucket is full.** From an empty bucket, a collection
whose first `num_shards` chunks (at least one) are of the requested block number proposes
exactly those, whatever arrives after them. -/
theorem collection_full {s : BlockProposer β} {height : Height} {round : Int} {now : UInt64}
    {cs : List ShardChunk} (rest : List ShardChunk)
    (hc : ∀ c ∈ cs, chunkBlockNumber c = some height.blockNumber)
    (hn : cs.length = s.numShards.toNat) (h0 : cs ≠ [])
    (hs : s.pendingChunks.get height.blockNumber = none) :
    (Task.run H B ⟨s, .idle⟩ (collection height round (cs ++ rest) now)).map
      (chunksProposed ·.2) = .ok [cs] := by
  have hstart : Task.step H B ⟨s, .idle⟩ (.proposeValue height round) =
      .ok (⟨s, .collecting height round⟩, []) := rfl
  obtain ⟨init, c, rfl⟩ := List.eq_nil_or_concat cs |>.resolve_left h0
  rw [List.concat_eq_append] at hc hn ⊢
  obtain ⟨s', hnum, hget, hrun⟩ := run_ticks_collecting (H := H) (B := B) round now init []
    (s := s) (fun c hc' => hc c (by simp [hc']))
    (by simp only [List.length_append, List.length_singleton] at hn; simp; omega)
    (by simp [stored, hs])
  obtain ⟨s₁, hnum₁, hget₁, hstep⟩ := step_tick_collecting (H := H) (B := B) round now
    (hc c (by simp)) hget
  rw [if_pos (by rw [hnum]; simpa using hn)] at hstep
  have hev : collection height round (init ++ [c] ++ rest) now = .proposeValue height round ::
      ((init.map fun c => .tick (some c) now) ++ .tick (some c) now ::
        (((rest.map some).map fun r => .tick r now) ++ [.deadline now])) := by
    simp [collection]
  rw [hev, Task.run, runSteps_cons_of_ok hstart, runSteps_append_of_ok hrun,
    runSteps_cons_of_ok hstep, show (finish H B s₁ height round now).1 =
      ⟨(finish H B s₁ height round now).1.proposer, .idle⟩ from rfl,
    ← Task.run, run_idle_ticks]
  simp [Except.map, collectedChunks, hget₁]

/-- **A chunk received twice fills the block.** From an empty bucket, a collection whose
`num_shards`-th chunk of the requested block number repeats an earlier one (a chunk that
catch-up republished after its shard decided it, or the other way round) ends with that
chunk: the block lists it twice, and leaves out every chunk that arrives after it, the
chunk of a shard still missing included. -/
theorem duplicate_chunk_fills_block {s : BlockProposer β} {height : Height} {round : Int}
    {now : UInt64} (pre mid rest : List ShardChunk) (c : ShardChunk)
    (hc : ∀ x ∈ pre ++ c :: mid ++ [c], chunkBlockNumber x = some height.blockNumber)
    (hn : (pre ++ c :: mid ++ [c]).length = s.numShards.toNat)
    (hs : s.pendingChunks.get height.blockNumber = none) :
    (Task.run H B ⟨s, .idle⟩ (collection height round (pre ++ c :: mid ++ [c] ++ rest) now)).map
      (chunksProposed ·.2) = .ok [pre ++ c :: mid ++ [c]] :=
  collection_full rest hc hn (by simp) hs

theorem duplicate_chunk_fills_block_two_shards :
    (Task.run Hasher.zero BlockEngine.unit ⟨BlockProposer.new [] 0 2 (), .idle⟩
        (collection ⟨0, 1⟩ 0 [chunkAt 1 1, chunkAt 1 1, chunkAt 2 1] 0)).map
      (chunksProposed ·.2) = .ok [[chunkAt 1 1, chunkAt 1 1]] :=
  duplicate_chunk_fills_block [] [] [chunkAt 2 1] (chunkAt 1 1) (by decide) rfl rfl

end Snapchain.BlockProposer

namespace Snapchain

variable {ε β : Type}

/-! ## What `decide` evicts -/

/-- A hasher for concrete runs that tells blocks apart by their timestamp. -/
def Hasher.timestamps : Hasher :=
  ⟨fun h => [h.timestamp.toUInt8], fun h => [h.timestamp.toUInt8], id⟩

theorem BTreeMap.isSome_get_insert {κ ν : Type} [DecidableEq κ] {m : BTreeMap κ ν} {k : κ}
    (k' : κ) (v : ν) (h : (m.get k).isSome) : ((m.insert k' v).get k).isSome := by
  simp only [BTreeMap.get_insert]
  split_ifs <;> simp [h]

/-- A call that does not decide `k` keeps an entry under `k`. -/
theorem ShardProposer.isSome_get_step {H : Hasher} {G : ShardEngine ε} {s s' : ShardProposer ε}
    {c : ShardProposer.Call} {o : List ShardProposer.Output} {k : ShardHash}
    (hc : ∀ height round, c ≠ .decide height round k) (h : s.step H G c = .ok (s', o))
    (hk : (s.proposedChunks.get k).isSome) : (s'.proposedChunks.get k).isSome := by
  rcases ShardProposer.step_cases h with ⟨height, round, now, -, rfl, -⟩ | ⟨fp, v, -, h1, -⟩ |
    ⟨height, round, value, oc, rfl, h1, -⟩ | ⟨-, -, -, rfl, -⟩
  · obtain ⟨k', -, ht⟩ := ShardProposer.proposeValue_table (s := s) (H := H) (G := G) height round now
    exact ht ▸ BTreeMap.isSome_get_insert _ _ hk
  · rcases ShardProposer.addProposedValue_cases h1 with ⟨-, k', -, -, rfl⟩ | ⟨-, rfl, -⟩
    · exact BTreeMap.isSome_get_insert _ _ hk
    · exact hk
  · have hv : k ≠ value := fun hv => hc height round (hv ▸ rfl)
    rcases ShardProposer.decide_cases h1 with ⟨-, rfl, -⟩ | ⟨-, -, -, -, rfl, -⟩
    · exact hk
    · simpa [hv] using hk
  · exact hk

/-- A step that does not decide `k` keeps an entry under `k`. -/
theorem BlockProposer.Task.isSome_get_step {H : Hasher} {B : BlockEngine β}
    {t t' : BlockProposer.Task β} {e : BlockProposer.Event} {o : List BlockProposer.Output}
    {k : ShardHash} (he : ∀ height round, e ≠ .decide height round k)
    (h : t.step H B e = .ok (t', o)) (hk : (t.proposer.proposedBlocks.get k).isSome) :
    (t'.proposer.proposedBlocks.get k).isSome := by
  have hfin : ∀ (s : BlockProposer β) height round now, (s.proposedBlocks.get k).isSome →
      ((BlockProposer.finish H B s height round now).1.proposer.proposedBlocks.get k).isSome :=
    fun s height round now hs => by
      obtain ⟨k', -, he'⟩ := BlockProposer.buildProposal_table (s := s) (H := H) (B := B)
        height round now (s.collectedChunks height.blockNumber)
      show ((s.buildProposal H B height round now _).1.proposedBlocks.get k).isSome
      rw [he']
      exact BTreeMap.isSome_get_insert _ _ hs
  rcases BlockProposer.Task.step_cases h with ⟨rfl, -⟩ | ⟨-, -, -, -, rfl, -⟩ |
    ⟨height, round, r, now, s, -, -, h1, hf⟩ | ⟨height, round, now, -, -, hf⟩ |
    ⟨fp, s, v, -, -, h1, rfl, -⟩ | ⟨height, round, value, s, ob, -, rfl, h1, rfl, -⟩ |
    ⟨-, -, -, -, rfl, -⟩
  · exact hk
  · exact hk
  · have hs : (s.proposedBlocks.get k).isSome := (BlockProposer.tick_proposedBlocks h1).1 ▸ hk
    rcases hf with ⟨-, rfl, -⟩ | ⟨-, rfl, -⟩
    · exact hfin s height round now hs
    · exact hs
  · exact (Prod.mk.inj hf).1 ▸ hfin _ height round now hk
  · rcases (BlockProposer.addProposedValue_cases h1).2 with ⟨-, k', -, -, rfl⟩ | ⟨-, rfl⟩
    · exact BTreeMap.isSome_get_insert _ _ hk
    · exact hk
  · have hv : k ≠ value := fun hv => he height round (hv ▸ rfl)
    rcases BlockProposer.decide_cases h1 with ⟨-, rfl, -⟩ | ⟨-, -, -, -, -, rfl⟩
    · exact hk
    · simpa [hv] using hk
  · exact hk

/-- **Only `decide` evicts, one key and one bucket.** `decide(h, r, v)` of the shard
proposer removes the entry under `v`; the block proposer's removes the entry under `v`
and, when it commits, the bucket of `h`'s block number; every other entry stays. Over
every later run, an entry stays as long as its key is not decided (a proposal of another
round at the decided height included), and the bucket of a decided block number holds
exactly the chunks of that number received after the decide: a chunk received afterwards
starts a new bucket. -/
theorem decide_evicts_only (H : Hasher) :
    (∀ (G : ShardEngine ε) (s s' : ShardProposer ε) height round value oc,
      s.decide G height round value = .ok (s', oc) →
      ∀ k, s'.proposedChunks.get k = if k = value then none else s.proposedChunks.get k) ∧
    (∀ (G : ShardEngine ε) (s s' : ShardProposer ε) calls os k,
      s.run H G calls = .ok (s', os) → (∀ height round, .decide height round k ∉ calls) →
      (s.proposedChunks.get k).isSome → (s'.proposedChunks.get k).isSome) ∧
    (∀ (B : BlockEngine β) (s s' : BlockProposer β) height round value ob,
      s.decide B height round value = .ok (s', ob) →
      (∀ k, s'.proposedBlocks.get k = if k = value then none else s.proposedBlocks.get k) ∧
      ∀ n, s'.pendingChunks.get n =
        if ob.isSome ∧ n = height.blockNumber then none else s.pendingChunks.get n) ∧
    (∀ (B : BlockEngine β) (t t' : BlockProposer.Task β) events os k,
      BlockProposer.Task.run H B t events = .ok (t', os) →
      (∀ height round, .decide height round k ∉ events) →
      (t.proposer.proposedBlocks.get k).isSome → (t'.proposer.proposedBlocks.get k).isSome) ∧
    (∀ (B : BlockEngine β) address shardId numShards engine events t os pre height b post,
      BlockProposer.Task.run H B ⟨BlockProposer.new address shardId numShards engine, .idle⟩
        events = .ok (t, os) →
      os = pre ++ .committed height b :: post →
      t.proposer.pendingChunks.get height.blockNumber =
        BlockProposer.stored (BlockProposer.bucketFrom [] height.blockNumber post)) := by
  refine ⟨fun G s s' height round value oc h k => ?_,
    fun G s s' calls os k h hc hk => runSteps_inv_of
      (E := fun c => ∀ height round, c ≠ .decide height round k)
      (fun _ _ _ _ he hk hs => ShardProposer.isSome_get_step he hs hk)
      (fun c hmem height round he => hc height round (by rwa [he] at hmem)) hk h,
    fun B s s' height round value ob h => ?_,
    fun B t t' events os k h he hk => runSteps_inv_of
      (E := fun e => ∀ height round, e ≠ .decide height round k)
      (fun _ _ _ _ he hk hs => BlockProposer.Task.isSome_get_step he hs hk)
      (fun e hmem height round he' => he height round (by rwa [he'] at hmem)) hk h,
    fun B address shardId numShards engine events t os pre height b post h hos => ?_⟩
  · rcases ShardProposer.decide_cases h with ⟨hv, rfl, -⟩ | ⟨-, c, -, -, rfl, -⟩
    · by_cases hk : k = value <;> simp [hk, hv]
    · simp
  · rcases BlockProposer.decide_cases h with ⟨hv, rfl, rfl⟩ | ⟨-, b, -, -, rfl, rfl⟩
    · exact ⟨fun k => by by_cases hk : k = value <;> simp [hk, hv], fun n => by simp⟩
    · exact ⟨fun k => by simp, fun n => by simp⟩
  · rw [BlockProposer.pendingChunks_run h, hos, BlockProposer.bucketFrom_append]
    simp [BlockProposer.bucketFrom, BlockProposer.bucketStep]

/-- Two rounds at block number 1 propose blocks with timestamps 0 and 1; the second is
decided. The first round's proposal stays in the table, and a chunk of block number 1
that arrives in the next collection is filed in a new bucket. -/
theorem decided_height_keeps_entries :
    (BlockProposer.Task.run Hasher.timestamps BlockEngine.unit
        ⟨BlockProposer.new [] 0 2 (), .idle⟩
        [.proposeValue ⟨0, 1⟩ 0, .deadline 0, .proposeValue ⟨0, 1⟩ 1, .deadline 1,
         .decide ⟨0, 1⟩ 1 ⟨[1], 0⟩, .proposeValue ⟨0, 2⟩ 0,
         .tick (some (chunkAt 1 1)) 2]).map
      (fun r => ((r.1.proposer.proposedBlocks.get ⟨[0], 0⟩).bind (·.height),
        r.1.proposer.pendingChunks.get 1)) =
      .ok (some ⟨0, 1⟩, some [chunkAt 1 1]) := by
  decide

end Snapchain
