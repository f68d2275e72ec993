import Snapchain.Proof.ShardTask
import Snapchain.Proof.Pending

/-!
# The node: every interleaving of its tasks

A node runs a task for each configured shard and the block task, joined by one channel:
the shard tasks send their decided chunks at its end, the block task's ticks take them
from its head. A run is any interleaving of the tasks' steps.

* `run_channel_fifo`: the channel loses, duplicates and reorders nothing: what the block
  task received, then what is left on the channel, is what was on it, then what the
  shards sent.
* `run_shard_isolation`: each shard's task ends where its own run on just the steps
  dispatched to its shard id ends, with just the outputs tagged with its id; a shard
  without a task never gets one.
* `create_eq_ok`: `SnapchainNode::create` goes through exactly when every configured
  shard id is in `1..=MAX_SHARDS` and none is configured twice (the second open of its
  database panics); it then starts one new shard task for each configured id, none for
  any other id, with an empty channel and an idle block task.
* `pending_chunks_exact`: the buckets of the block proposer of a node are, at every
  point, the chunks it took from the channel since the last `decide` of their block
  number, in order; a collection for `propose_value(h)` ends at its deadline at the
  latest, with the block at `h` of the bucket of `h`'s block number.
* `run_never_panics`: a node from `create` never panics on steps it can answer: peers'
  proposals with a height, whose chunk has a header and a height, and peers that answer
  with such chunks.
* `proposed_chunks_were_sent`: every block the block task of a node from `create`
  proposes holds chunks the shards sent, in the order sent, each at most once, all of
  the block's number.
* `shard_runs_as_proposer`: every shard task of a node from `create` is, settled, a run
  of the shard proposer's own calls from `ShardProposer::new`, with the outputs tagged
  with its shard id.

Each is assembled from one lemma about a single step (`step_channel`, `step_shard`,
`step_block`, `OK.step`), which reads `step_cases`, and the run lemmas of `runSteps`;
`exists_block_run` makes the block task's part of a node run a run of the block
proposer's own task, so that what is proved of that task holds in the node.
-/

namespace Snapchain

/-! ## The chunks the block task receives -/

namespace BlockProposer

variable {β : Type} {H : Hasher} {B : BlockEngine β} {t t' : Task β}

/-- The chunks a run of the block task received from the channel, in order. -/
def receivedChunks (os : List Output) : List ShardChunk :=
  os.filterMap fun
    | .received c => some c
    | _ => none

@[simp] theorem receivedChunks_nil : receivedChunks [] = [] := rfl

@[simp] theorem receivedChunks_append (os o : List Output) :
    receivedChunks (os ++ o) = receivedChunks os ++ receivedChunks o :=
  List.filterMap_append _ _ _

@[simp] theorem receivedChunks_received (cs : List ShardChunk) :
    receivedChunks (cs.map .received) = cs := by
  induction cs <;> simp_all [receivedChunks]

theorem receivedChunks_eq_nil {o : List Output} (h : ∀ x ∈ o, ∀ c, x ≠ .received c) :
    receivedChunks o = [] :=
  List.filterMap_eq_nil_iff.2 fun x hx => by
    cases x with
    | received c => exact absurd rfl (h _ hx c)
    | _ => rfl

/-- A tick of a collection receives what it took from the channel. -/
theorem receivedChunks_tick {height : Height} {round : Int} {r : Option ShardChunk}
    {now : UInt64} {o : List Output} (hp : t.phase = .collecting height round)
    (h : t.step H B (.tick r now) = .ok (t', o)) : receivedChunks o = r.toList := by
  obtain ⟨s, phase⟩ := t
  simp only at hp
  subst hp
  obtain ⟨s', -, h2⟩ := bind_eq_ok.1 h
  split_ifs at h2 <;> cases h2
  · rw [receivedChunks_append, receivedChunks_received]
    exact List.append_nil _
  · exact receivedChunks_received _

/-- No step other than a tick receives anything. -/
theorem receivedChunks_of_ne_tick {e : Event} {o : List Output} (h : t.step H B e = .ok (t', o))
    (he : ∀ r now, e ≠ .tick r now) : receivedChunks o = [] := by
  rcases Task.step_cases h with ⟨-, rfl⟩ | ⟨_, _, _, _, _, rfl⟩ |
    ⟨_, _, r, now, _, _, rfl, _⟩ | ⟨height, round, now, _, _, hfin⟩ |
    ⟨_, _, _, _, _, _, _, rfl⟩ | ⟨_, _, _, _, ob, _, _, _, _, rfl⟩ | ⟨_, _, _, _, _, ho⟩
  · rfl
  · rfl
  · exact absurd rfl (he r now)
  · rw [(Prod.mk.inj hfin).2]; rfl
  · rfl
  · cases ob <;> rfl
  · exact receivedChunks_eq_nil fun x hx c hc => by
      rcases ho x hx with ⟨_, rfl⟩ | ⟨_, rfl⟩ <;> cases hc

/-- **The chunks of a bucket are chunks received**, in the order received, after the
bucket it started from. -/
theorem bucketFrom_sublist {k : UInt64} :
    ∀ {os : List Output} {init : List ShardChunk}, (bucketFrom init k os).Sublist (init ++ receivedChunks os)
  | [], init => by simp [bucketFrom, receivedChunks]
  | x :: os, init => by
    refine (@bucketFrom_sublist k os (bucketStep k init x)).trans ?_
    cases x with
    | received c =>
      simp only [bucketStep, receivedChunks, List.filterMap_cons]
      split_ifs
      · simp
      · exact (List.sublist_cons_self _ _).append_left init
    | committed h b =>
      simp only [bucketStep, receivedChunks, List.filterMap_cons]
      split_ifs
      · exact List.sublist_append_right _ _
      · exact List.Sublist.refl _
    | _ => exact List.Sublist.refl _

/-- A proposal of a block whose chunks are among `cs`, in the order of `cs` and each at
most once, and carry the block's number. -/
def ProposesFrom (cs : List ShardChunk) (p : FullProposal) : Prop :=
  ∃ height b, p.height = some height ∧ p.proposedValue = some (.block b) ∧
    b.shardChunks.Sublist cs ∧ ∀ c ∈ b.shardChunks, chunkBlockNumber c = some height.blockNumber

theorem ProposesFrom.mono {cs cs' : List ShardChunk} {p : FullProposal} (hp : ProposesFrom cs p)
    (h : cs.Sublist cs') : ProposesFrom cs' p := by
  obtain ⟨height, b, h1, h2, h3, h4⟩ := hp
  exact ⟨height, b, h1, h2, h3.trans h, h4⟩

/-- **The blocks a run proposes hold chunks it received.** In every run of the block
task from a proposer with no pending chunk, each block it proposes holds chunks the run
received, in the order received, each at most once, all of the block's number. -/
theorem proposed_sublist_received {es : List Event} {os : List Output}
    (hm : ∀ k, t.proposer.pendingChunks.get k = none) (h : Task.run H B t es = .ok (t', os)) :
    ∀ p, .proposed p ∈ os → ProposesFrom (receivedChunks os) p := by
  refine (runSteps_trace_nil (Q := fun t₁ os => Buckets t.proposer.pendingChunks t₁.proposer os ∧
    ∀ p, .proposed p ∈ os → ProposesFrom (receivedChunks os) p) ?_ ?_ h).2
  · rintro t₁ acc e t₂ o ⟨hb, hp⟩ hs
    refine ⟨hb.step hs, fun p hmem => ?_⟩
    rcases List.mem_append.1 hmem with hmem | hmem
    · exact (hp p hmem).mono ((receivedChunks_append acc o).symm ▸ List.sublist_append_left _ _)
    · obtain ⟨height, b, h1, h2, h3⟩ := proposed_of_step hb hs hmem
      rw [hm, Option.getD_none] at h3
      exact ⟨height, b, h1, h2, h3 ▸ bucketFrom_sublist,
        h3 ▸ bucketFrom_mem (fun _ hc => absurd hc (List.not_mem_nil _))⟩
  · exact ⟨fun k => by simp [hm k, bucketFrom, stored], fun _ hp => absurd hp (List.not_mem_nil _)⟩

/-- A step of the task with a well-formed table does not panic when what it files has a
header and a height and what it records has a height. -/
theorem Task.step_ok (hs : TableOK t.proposer) {e : Event}
    (hr : ∀ r now c, e = .tick r now → r = some c → Fileable c)
    (hp : ∀ fp, e = .addProposedValue fp → fp.height.isSome) : ∃ x, t.step H B e = .ok x := by
  obtain ⟨s, phase⟩ := t
  cases phase with
  | idle =>
    cases e with
    | addProposedValue fp =>
      obtain ⟨x, hx⟩ : ∃ x, s.addProposedValue fp = .ok x := by
        unfold addProposedValue
        split
        · rename_i b hv
          obtain ⟨height, hg⟩ := Option.isSome_iff_exists.1 (hp fp rfl)
          exact ⟨_, by simp [FullProposal.shardHash_eq hg hv]; rfl⟩
        · exact ⟨_, rfl⟩
      exact ⟨_, by simp only [Task.step, hx, ok_bind]; rfl⟩
    | decide height round value =>
      obtain ⟨⟨s', ob⟩, hx⟩ := hs.decide_ok (B := B) height round value
      cases ob <;> exact ⟨_, by simp only [Task.step, hx, ok_bind]; rfl⟩
    | registerValidator v peer =>
      cases hv : s.registerValidator B v peer <;> exact ⟨_, by simp only [Task.step, hv]; rfl⟩
    | _ => exact ⟨_, rfl⟩
  | collecting height round =>
    cases e with
    | tick r now =>
      obtain ⟨s', hs'⟩ : ∃ s', s.tick r = .ok s' := by
        cases r with
        | none => exact ⟨s, rfl⟩
        | some c =>
          obtain ⟨header, h', hh, hg⟩ := hr _ now c rfl rfl
          exact ⟨_, fileChunk_eq hh hg⟩
      simp only [Task.step, hs', ok_bind]
      split <;> exact ⟨_, rfl⟩
    | _ => exact ⟨_, rfl⟩

end BlockProposer

namespace Node

variable {ε β : Type} {H : Hasher} {G : UInt32 → ShardEngine ε} {B : BlockEngine β}
  {w w' : Node ε β}

/-! ## What the tasks output -/

/-- The output of shard `i`'s task a node's output is, if it is one. -/
def Output.ofShard (i : UInt32) : Output → Option ShardProposer.Output
  | .shard j o => if j = i then some o else none
  | .block _ => none

/-- The output of the block task a node's output is, if it is one. -/
def Output.ofBlock : Output → Option BlockProposer.Output
  | .block o => some o
  | .shard _ _ => none

/-- The steps of shard `i`'s task among a node's steps. -/
def Event.forShard (i : UInt32) : Event → List ShardTask.Event
  | .shard j e => if j = i then [e] else []
  | _ => []

def shardOutputs (i : UInt32) (os : List Output) : List ShardProposer.Output :=
  os.filterMap (Output.ofShard i)

def blockOutputs (os : List Output) : List BlockProposer.Output :=
  os.filterMap Output.ofBlock

/-- The chunks the shard tasks sent on the channel, in order. -/
def sentChunks (os : List Output) : List ShardChunk :=
  os.filterMap fun
    | .shard _ (.published c) => some c
    | _ => none

/-- The chunks the block task received from the channel, in order. -/
def receivedChunks (os : List Output) : List ShardChunk :=
  BlockProposer.receivedChunks (blockOutputs os)

@[simp] theorem blockOutputs_append (os o : List Output) :
    blockOutputs (os ++ o) = blockOutputs os ++ blockOutputs o :=
  List.filterMap_append _ _ _

@[simp] theorem sentChunks_append (os o : List Output) :
    sentChunks (os ++ o) = sentChunks os ++ sentChunks o :=
  List.filterMap_append _ _ _

@[simp] theorem receivedChunks_append (os o : List Output) :
    receivedChunks (os ++ o) = receivedChunks os ++ receivedChunks o := by
  simp [receivedChunks]

@[simp] theorem shardOutputs_map_shard (i j : UInt32) (outs : List ShardProposer.Output) :
    shardOutputs i (outs.map (.shard j)) = if j = i then outs else [] := by
  induction outs with
  | nil => split_ifs <;> rfl
  | cons o outs ih => by_cases h : j = i <;> simp_all [shardOutputs, Output.ofShard]

@[simp] theorem shardOutputs_map_block (i : UInt32) (outs : List BlockProposer.Output) :
    shardOutputs i (outs.map .block) = [] := by
  induction outs <;> simp_all [shardOutputs, Output.ofShard]

@[simp] theorem blockOutputs_map_block (outs : List BlockProposer.Output) :
    blockOutputs (outs.map .block) = outs := by
  induction outs <;> simp_all [blockOutputs, Output.ofBlock]

@[simp] theorem blockOutputs_map_shard (i : UInt32) (outs : List ShardProposer.Output) :
    blockOutputs (outs.map (.shard i)) = [] := by
  induction outs <;> simp_all [blockOutputs, Output.ofBlock]

@[simp] theorem sentChunks_map_shard (i : UInt32) (outs : List ShardProposer.Output) :
    sentChunks (outs.map (.shard i)) = ShardProposer.sent outs := by
  induction outs with
  | nil => rfl
  | cons o outs ih => cases o <;> simp_all [sentChunks, ShardProposer.sent]

@[simp] theorem sentChunks_map_block (outs : List BlockProposer.Output) :
    sentChunks (outs.map .block) = [] := by
  induction outs <;> simp_all [sentChunks]

/-! ## A step of the node -/

/-- **A step of the node**, by what it is: nothing (a step of a shard without a task, a
tick while the block task is idle, a tick given as a block step); a step of a shard's
task, whose sends go onto the channel; a tick of the collecting block task, which takes
the channel's head; or another step of the block task. -/
theorem step_cases {e : Event} {o : List Output} (h : w.step H G B e = .ok (w', o)) :
    (w' = w ∧ o = [] ∧ ∀ i se, e = .shard i se → w.shards.get i = none) ∨
    (∃ i se t t' outs, e = .shard i se ∧ w.shards.get i = some t ∧
      t.step H (G i) se = .ok (t', outs) ∧
      w' = { w with
        shards := w.shards.insert i t'
        channel := w.channel ++ ShardProposer.sent outs } ∧
      o = outs.map (.shard i)) ∨
    (∃ now height round tb outs, e = .blockTick now ∧ w.block.phase = .collecting height round ∧
      w.block.step H B (.tick w.channel.head? now) = .ok (tb, outs) ∧
      w' = { w with block := tb, channel := w.channel.tail } ∧ o = outs.map .block) ∨
    (∃ eb tb outs, e = .blockStep eb ∧ (∀ r now, eb ≠ .tick r now) ∧
      w.block.step H B eb = .ok (tb, outs) ∧ w' = { w with block := tb } ∧
      o = outs.map .block) := by
  cases e with
  | shard i se =>
    cases ht : w.shards.get i with
    | none =>
      simp only [step, ht, pure_eq_ok, Except.ok.injEq, Prod.mk.injEq] at h
      exact .inl ⟨h.1.symm, h.2.symm, fun j se' he => by cases he; exact ht⟩
    | some t =>
      simp only [step, ht] at h
      obtain ⟨⟨t', outs⟩, h1, h2⟩ := bind_eq_ok.1 h
      simp only [pure_eq_ok, Except.ok.injEq, Prod.mk.injEq] at h2
      exact .inr (.inl ⟨i, se, t, t', outs, rfl, ht, h1, h2.1.symm, h2.2.symm⟩)
  | blockTick now =>
    cases hp : w.block.phase with
    | idle =>
      simp only [step, hp, pure_eq_ok, Except.ok.injEq, Prod.mk.injEq] at h
      exact .inl ⟨h.1.symm, h.2.symm, nofun⟩
    | collecting height round =>
      simp only [step, hp] at h
      obtain ⟨⟨tb, outs⟩, h1, h2⟩ := bind_eq_ok.1 h
      simp only [pure_eq_ok, Except.ok.injEq, Prod.mk.injEq] at h2
      exact .inr (.inr (.inl ⟨now, height, round, tb, outs, rfl, rfl, h1, h2.1.symm, h2.2.symm⟩))
  | blockStep eb =>
    cases eb with
    | tick r now =>
      simp only [step, pure_eq_ok, Except.ok.injEq, Prod.mk.injEq] at h
      exact .inl ⟨h.1.symm, h.2.symm, nofun⟩
    | _ =>
      obtain ⟨⟨tb, outs⟩, h1, h2⟩ := bind_eq_ok.1 h
      simp only [pure_eq_ok, Except.ok.injEq, Prod.mk.injEq] at h2
      exact .inr (.inr (.inr ⟨_, tb, outs, rfl, nofun, h1, h2.1.symm, h2.2.symm⟩))

/-! ## A run of two shards -/

/-- The engines of the concrete runs below: every shard over `ShardEngine.unit`. -/
def unitEngines : UInt32 → ShardEngine Unit := fun _ => ShardEngine.unit

/-- The node `create` starts for shards 1 and 2 over unit engines: a new task for each
shard, an empty channel and an idle block task for two shards. -/
def twoShardNode : Node Unit Unit :=
  ⟨(BTreeMap.new.insert 1 (ShardTask.new [] 1 ())).insert 2 (ShardTask.new [] 2 ()), [],
    ⟨BlockProposer.new [] 0 2 (), .idle⟩⟩

/-- Shards 1 and 2 each propose a chunk at block 1 and decide it, while the block task
collects block 1 for two shards: it receives the first chunk before shard 1 resumes,
then the second, and proposes a block of both. -/
def twoShardEvents : List Event :=
  [.shard 1 (.call (.proposeValue ⟨1, 1⟩ 0 0)), .shard 2 (.call (.proposeValue ⟨2, 1⟩ 0 0)),
    .blockStep (.proposeValue ⟨0, 1⟩ 0), .shard 1 (.call (.decide ⟨1, 1⟩ 0 ⟨[], 1⟩)),
    .shard 2 (.call (.decide ⟨2, 1⟩ 0 ⟨[], 2⟩)), .blockTick 0, .shard 1 .resume, .blockTick 0,
    .shard 2 .resume]

/-! ## The channel -/

/-- **A step moves chunks through the channel**: what it received, then the channel
after, is the channel before, then what it sent. -/
theorem step_channel {e : Event} {o : List Output} (h : w.step H G B e = .ok (w', o)) :
    receivedChunks o ++ w'.channel = w.channel ++ sentChunks o := by
  rcases step_cases h with ⟨rfl, rfl, -⟩ | ⟨i, se, t, t', outs, -, -, -, rfl, rfl⟩ |
    ⟨now, height, round, tb, outs, -, hp, h1, rfl, rfl⟩ | ⟨eb, tb, outs, -, he, h1, rfl, rfl⟩
  · simp [receivedChunks, blockOutputs, sentChunks]
  · simp [receivedChunks]
  · rw [receivedChunks, blockOutputs_map_block, BlockProposer.receivedChunks_tick (t := w.block) hp h1,
      sentChunks_map_block, List.append_nil]
    cases w.channel <;> rfl
  · simp [receivedChunks, BlockProposer.receivedChunks_of_ne_tick h1 he]

/-- What a run has received and what is left on the channel, against what was on it and
what was sent, one step further. -/
theorem channel_trace {w₀ : Node ε β} {acc : List Output} {e : Event} {o : List Output}
    (hq : receivedChunks acc ++ w.channel = w₀.channel ++ sentChunks acc)
    (h : w.step H G B e = .ok (w', o)) :
    receivedChunks (acc ++ o) ++ w'.channel = w₀.channel ++ sentChunks (acc ++ o) := by
  rw [receivedChunks_append, sentChunks_append, List.append_assoc, step_channel h,
    ← List.append_assoc, hq, List.append_assoc]

/-- **The channel is a queue.** In every run of a node, from any state and in any
interleaving of its tasks, the chunks the block task received, then the chunks left on
the channel, are the chunks that were on it, then the chunks the shard tasks sent: no
chunk is lost, duplicated or reordered. -/
theorem run_channel_fifo {es : List Event} {os : List Output} (h : w.run H G B es = .ok (w', os)) :
    receivedChunks os ++ w'.channel = w.channel ++ sentChunks os :=
  runSteps_trace_nil (Q := fun w' os => receivedChunks os ++ w'.channel = w.channel ++ sentChunks os)
    (fun _ _ _ _ _ hq hs => channel_trace hq hs) (by simp [receivedChunks, blockOutputs, sentChunks]) h

/-! ## Each shard's task -/

/-- **A step is a step of at most one shard's task**: the task of shard `i`, if the node
has one, takes just the steps dispatched to `i`, with just the outputs tagged with `i`. -/
theorem step_shard {e : Event} {o : List Output} (h : w.step H G B e = .ok (w', o)) {i : UInt32}
    {t : ShardTask ε} (ht : w.shards.get i = some t) :
    ∃ t', w'.shards.get i = some t' ∧
      ShardTask.run H (G i) t (e.forShard i) = .ok (t', shardOutputs i o) := by
  rcases step_cases h with ⟨rfl, rfl, hn⟩ | ⟨j, se, t₁, t₂, outs, rfl, hj, h1, rfl, rfl⟩ |
    ⟨now, _, _, _, _, rfl, _, _, rfl, rfl⟩ | ⟨eb, _, _, rfl, _, _, rfl, rfl⟩
  · refine ⟨t, ht, ?_⟩
    cases e with
    | shard j se =>
      have hji : j ≠ i := fun hji => by simp [← hji, hn j se rfl] at ht
      simp only [Event.forShard, hji, if_false]
      rfl
    | _ => rfl
  · by_cases hji : j = i
    · subst hji
      obtain rfl : t₁ = t := Option.some.inj (hj.symm.trans ht)
      refine ⟨t₂, by simp, ?_⟩
      simp [Event.forShard, ShardTask.run, runSteps, h1]
    · refine ⟨t, by simp [Ne.symm hji, ht], ?_⟩
      simp only [Event.forShard, hji, if_false, shardOutputs_map_shard]
      rfl
  · exact ⟨t, ht, by simp only [Event.forShard, shardOutputs_map_block]; rfl⟩
  · exact ⟨t, ht, by simp only [Event.forShard, shardOutputs_map_block]; rfl⟩

/-- A shard the node has no task for does not get one. -/
theorem step_shard_none {e : Event} {o : List Output} (h : w.step H G B e = .ok (w', o))
    {i : UInt32} (hi : w.shards.get i = none) : w'.shards.get i = none := by
  rcases step_cases h with ⟨rfl, -, -⟩ | ⟨j, _, _, _, _, _, hj, _, rfl, _⟩ |
    ⟨_, _, _, _, _, _, _, _, rfl, _⟩ | ⟨_, _, _, _, _, _, rfl, _⟩
  · exact hi
  · have hij : i ≠ j := fun hij => by simp [hij, hj] at hi
    simp [hij, hi]
  · exact hi
  · exact hi

/-- **Each shard runs alone.** In every run of a node, from any state and in any
interleaving of its tasks, the task of each shard `i` the node has ends where its own run
on just the steps dispatched to `i` ends, with just the outputs tagged with `i`; a shard
the node has no task for never gets one. -/
theorem run_shard_isolation {es : List Event} {os : List Output}
    (h : w.run H G B es = .ok (w', os)) (i : UInt32) :
    (w.shards.get i = none → w'.shards.get i = none) ∧
    ∀ t, w.shards.get i = some t → ∃ t', w'.shards.get i = some t' ∧
      ShardTask.run H (G i) t (es.flatMap (Event.forShard i)) = .ok (t', shardOutputs i os) :=
  ⟨fun hi => runSteps_inv (P := fun w => w.shards.get i = none)
      (fun _ _ _ _ hi hs => step_shard_none hs hi) hi h,
    fun _ ht => runSteps_simulate (R := fun w t => w.shards.get i = some t)
      (φ := Output.ofShard i) (fun _ _ _ _ _ ht hs => step_shard hs ht) ht h⟩

/-! ## The block task -/

/-- A step of the node is at most one step of the block task, with the block task's
outputs: a tick takes the channel's head. -/
theorem step_block {e : Event} {o : List Output} (h : w.step H G B e = .ok (w', o)) :
    ∃ bes, BlockProposer.Task.run H B w.block bes = .ok (w'.block, blockOutputs o) := by
  rcases step_cases h with ⟨rfl, rfl, -⟩ | ⟨_, _, _, _, _, _, _, _, rfl, rfl⟩ |
    ⟨now, _, _, _, _, _, _, h1, rfl, rfl⟩ | ⟨eb, _, _, _, _, h1, rfl, rfl⟩
  · exact ⟨[], rfl⟩
  · exact ⟨[], by simp only [blockOutputs_map_shard]; rfl⟩
  · exact ⟨[.tick w.channel.head? now], by simp [BlockProposer.Task.run, runSteps, h1]⟩
  · exact ⟨[eb], by simp [BlockProposer.Task.run, runSteps, h1]⟩

/-- Every run of the node is, for the block task, a run of its own task. -/
theorem exists_block_run {es : List Event} {os : List Output} (h : w.run H G B es = .ok (w', os)) :
    ∃ bes, BlockProposer.Task.run H B w.block bes = .ok (w'.block, blockOutputs os) := by
  obtain ⟨bes, _, rfl, hb⟩ := runSteps_refines (R := fun w tb => w.block = tb)
    (φ := Output.ofBlock) (fun _ _ _ _ _ hr hs => by
      subst hr
      obtain ⟨bes, hb⟩ := step_block hs
      exact ⟨bes, _, rfl, hb⟩) rfl h
  exact ⟨bes, hb⟩

/-! ## The block proposer's buckets -/

/-- The deadline of the block task's collection ends it. -/
theorem step_deadline {height : Height} {round : Int} (hp : w.block.phase = .collecting height round)
    (now : UInt64) :
    w.step H G B (.blockStep (.deadline now)) =
      .ok ({ w with block := (BlockProposer.finish H B w.block.proposer height round now).1 },
        (BlockProposer.finish H B w.block.proposer height round now).2.map .block) := by
  simp only [Node.step, BlockProposer.Task.step_deadline hp, ok_bind]
  rfl

/-- A step of the node that ends the block task's collection at `height` proposes the
block at `height` of the chunks received for its block number so far. -/
theorem proposes_of_collecting_end {m : BTreeMap UInt64 (List ShardChunk)} {os : List Output}
    (hb : BlockProposer.Buckets m w.block.proposer (blockOutputs os)) {height : Height}
    {round : Int} (hp : w.block.phase = .collecting height round) {e : Event} {o : List Output}
    (h : w.step H G B e = .ok (w', o)) (hi : w'.block.phase = .idle) :
    ∃ p b, .block (.proposed p) ∈ o ∧ p.height = some height ∧
      p.proposedValue = some (.block b) ∧
      b.shardChunks = BlockProposer.bucketFrom ((m.get height.blockNumber).getD [])
        height.blockNumber (blockOutputs (os ++ o)) := by
  have key : ∀ eb tb outs, w.block.step H B eb = .ok (tb, outs) → tb.phase = .idle →
      ∃ p b, .proposed p ∈ outs ∧ p.height = some height ∧ p.proposedValue = some (.block b) ∧
        b.shardChunks = BlockProposer.bucketFrom ((m.get height.blockNumber).getD [])
          height.blockNumber (blockOutputs os ++ outs) := fun eb tb outs h1 hi => by
    obtain ⟨p, hmem⟩ := BlockProposer.Task.proposes_of_idle hp h1 hi
    obtain ⟨height', b, h2, h3, h4⟩ := BlockProposer.proposed_of_step hb h1 hmem
    obtain ⟨s, now, -, -, rfl⟩ := BlockProposer.Task.proposed_of_collecting hp h1 hmem
    obtain rfl : height' = height := (Option.some.inj h2).symm
    exact ⟨_, b, hmem, rfl, h3, h4⟩
  rcases step_cases h with ⟨rfl, -, -⟩ | ⟨_, _, _, _, _, -, -, -, rfl, -⟩ |
    ⟨now, _, _, tb, outs, -, -, h1, rfl, rfl⟩ | ⟨eb, tb, outs, -, -, h1, rfl, rfl⟩
  · simp [hp] at hi
  · simp [hp] at hi
  all_goals
    obtain ⟨p, b, hmem, h2, h3, h4⟩ := key _ tb outs h1 hi
    exact ⟨p, b, List.mem_map_of_mem _ hmem, h2, h3, by simpa using h4⟩

/-- **`pending_chunks` is exactly what was received from the channel.** In every run of a
node whose block proposer starts new (a node from `SnapchainNode::create`), in any
interleaving of its tasks: the chunks the block proposer received are, in order, those
that were on the channel and that the shards sent on it, but for those still on it; the
bucket of each block number `k` is the list, in arrival order, of the chunks received
with block number `k` since the last `decide` that evicted `k`, and is absent when that
list is empty. While the block proposer collects for a `propose_value(h)`, its deadline
ends the collection, and the step that ends it returns the block at `h` whose chunks are
exactly those received for `h`'s block number so far, each of that block number. -/
theorem pending_chunks_exact {address : Bytes} {shardId numShards : UInt32} {engine : β}
    (hb : w.block = ⟨BlockProposer.new address shardId numShards engine, .idle⟩)
    {es : List Event} {os : List Output} (h : w.run H G B es = .ok (w', os)) :
    receivedChunks os ++ w'.channel = w.channel ++ sentChunks os ∧
    (∀ k, w'.block.proposer.pendingChunks.get k =
      BlockProposer.stored (BlockProposer.bucketFrom [] k (blockOutputs os))) ∧
    ∀ height round, w'.block.phase = .collecting height round →
      (∀ now, ∃ w'' o, w'.step H G B (.blockStep (.deadline now)) = .ok (w'', o) ∧
        w''.block.phase = .idle) ∧
      ∀ e w'' o, w'.step H G B e = .ok (w'', o) → w''.block.phase = .idle →
        ∃ p b, .block (.proposed p) ∈ o ∧ p.height = some height ∧
          p.proposedValue = some (.block b) ∧
          b.shardChunks = BlockProposer.bucketFrom [] height.blockNumber (blockOutputs (os ++ o)) ∧
          ∀ c ∈ b.shardChunks, BlockProposer.chunkBlockNumber c = some height.blockNumber := by
  obtain ⟨bes, hrun⟩ := exists_block_run h
  rw [hb] at hrun
  have hbk := BlockProposer.Buckets.run (by simp [BlockProposer.new]) hrun
  refine ⟨run_channel_fifo h, fun k => by simpa [BlockProposer.new] using hbk k,
    fun height round hp => ⟨fun now => ⟨_, _, step_deadline hp now, rfl⟩,
      fun e w'' o hs hi => ?_⟩⟩
  obtain ⟨p, b, hmem, h2, h3, h4⟩ := proposes_of_collecting_end hbk hp hs hi
  simp only [BlockProposer.new, BTreeMap.get_new, Option.getD_none] at h4
  exact ⟨p, b, hmem, h2, h3, h4, h4 ▸ BlockProposer.bucketFrom_mem (by simp)⟩

theorem pending_chunks_exact_two_shards :
    ∃ w' os, twoShardNode.run Hasher.zero unitEngines BlockEngine.unit (twoShardEvents.take 6) =
        .ok (w', os) ∧
      receivedChunks os ++ w'.channel = twoShardNode.channel ++ sentChunks os ∧
      (∀ k, w'.block.proposer.pendingChunks.get k =
        BlockProposer.stored (BlockProposer.bucketFrom [] k (blockOutputs os))) ∧
      ∀ height round, w'.block.phase = .collecting height round →
        (∀ now, ∃ w'' o, w'.step Hasher.zero unitEngines BlockEngine.unit
            (.blockStep (.deadline now)) = .ok (w'', o) ∧ w''.block.phase = .idle) ∧
        ∀ e w'' o, w'.step Hasher.zero unitEngines BlockEngine.unit e = .ok (w'', o) →
          w''.block.phase = .idle →
          ∃ p b, .block (.proposed p) ∈ o ∧ p.height = some height ∧
            p.proposedValue = some (.block b) ∧
            b.shardChunks = BlockProposer.bucketFrom [] height.blockNumber (blockOutputs (os ++ o)) ∧
            ∀ c ∈ b.shardChunks, BlockProposer.chunkBlockNumber c = some height.blockNumber := by
  obtain ⟨w', os, h⟩ : ∃ w' os, twoShardNode.run Hasher.zero unitEngines BlockEngine.unit
      (twoShardEvents.take 6) = .ok (w', os) := ⟨_, _, rfl⟩
  exact ⟨w', os, h, pending_chunks_exact rfl h⟩

/-! ## `create` -/

/-- One shard id of `create`'s loop goes through exactly when it is in `1..=MAX_SHARDS`
and has no task yet; it then adds a new task for it. -/
theorem createShard_eq_ok {address : Bytes} {shardEngine : UInt32 → ε}
    {m m' : BTreeMap UInt32 (ShardTask ε)} {i : UInt32} :
    createShard address shardEngine m i = .ok m' ↔
      (i ≠ 0 ∧ i ≤ maxShards ∧ m.get i = none) ∧
        m' = m.insert i (ShardTask.new address i (shardEngine i)) := by
  unfold createShard
  split_ifs with h0 h3
  · exact iff_of_false nofun (by simp [h0])
  · exact iff_of_false nofun (by simp [UInt32.not_le.2 h3])
  · cases m.get i
    · simp [h0, UInt32.not_lt.1 h3, eq_comm]
    · exact iff_of_false nofun (by simp)

/-- **The loop of `create`**, from the map `m`, goes through exactly when every configured
shard id is in `1..=MAX_SHARDS`, has no task in `m` and is configured once; it then adds a
new task for each. -/
theorem foldlM_createShard_eq_ok {address : Bytes} {shardEngine : UInt32 → ε} :
    ∀ {shardIds : List UInt32} {m m' : BTreeMap UInt32 (ShardTask ε)},
      shardIds.foldlM (createShard address shardEngine) m = .ok m' ↔
        (∀ i ∈ shardIds, i ≠ 0 ∧ i ≤ maxShards ∧ m.get i = none) ∧ shardIds.Nodup ∧
        m' = ⟨fun i => if i ∈ shardIds then some (ShardTask.new address i (shardEngine i))
          else m.get i⟩
  | [], m, m' => by
    simp only [List.foldlM_nil, pure_eq_ok, Except.ok.injEq, List.not_mem_nil, if_false,
      List.nodup_nil, true_and, false_implies, implies_true]
    exact eq_comm
  | i :: is, m, m' => by
    have hget : ∀ j, (m.insert i (ShardTask.new address i (shardEngine i))).get j = none ↔
        j ≠ i ∧ m.get j = none := fun j => by
      by_cases hj : j = i <;> simp [hj]
    have hmap : ∀ j, (if j ∈ is then some (ShardTask.new address j (shardEngine j))
        else (m.insert i (ShardTask.new address i (shardEngine i))).get j) =
        if j ∈ i :: is then some (ShardTask.new address j (shardEngine j)) else m.get j :=
      fun j => by
        by_cases hj : j = i
        · subst hj; simp
        · by_cases hjs : j ∈ is <;> simp [hj, hjs]
    rw [List.foldlM_cons, bind_eq_ok]
    simp only [createShard_eq_ok, foldlM_createShard_eq_ok, and_assoc, exists_and_left, exists_eq_left, hget,
      hmap, List.forall_mem_cons, List.nodup_cons]
    constructor
    · rintro ⟨h0, h3, hm, hall, hnd, rfl⟩
      exact ⟨h0, h3, hm, fun j hj => ⟨(hall j hj).1, (hall j hj).2.1, (hall j hj).2.2.2⟩,
        fun hi => (hall i hi).2.2.1 rfl, hnd, rfl⟩
    · rintro ⟨h0, h3, hm, hall, hi, hnd, rfl⟩
      exact ⟨h0, h3, hm, fun j hj => ⟨(hall j hj).1, (hall j hj).2.1, fun hji => hi (hji ▸ hj),
        (hall j hj).2.2⟩, hnd, rfl⟩

/-- **What `SnapchainNode::create` starts.** It goes through exactly when every configured
shard id is in `1..=MAX_SHARDS` and none is configured twice, and it then starts, for each
configured shard id, a new shard task with a sender on the channel, and none for any
other id (none for shard 0), with an empty channel and an idle block proposer of shard 0
for `num_shards` shards. -/
theorem create_eq_ok {address : Bytes} {shardIds : List UInt32} {numShards : UInt32}
    {shardEngine : UInt32 → ε} {blockEngine : β} :
    create address shardIds numShards shardEngine blockEngine = .ok w ↔
      (∀ i ∈ shardIds, i ≠ 0 ∧ i ≤ maxShards) ∧ shardIds.Nodup ∧
      w = ⟨⟨fun i => if i ∈ shardIds then some (ShardTask.new address i (shardEngine i))
          else none⟩, [], ⟨BlockProposer.new address 0 numShards blockEngine, .idle⟩⟩ := by
  simp only [create, bind_eq_ok, foldlM_createShard_eq_ok, BTreeMap.get_new, and_true,
    pure_eq_ok, Except.ok.injEq]
  constructor
  · rintro ⟨_, ⟨hall, hnd, rfl⟩, rfl⟩
    exact ⟨hall, hnd, rfl⟩
  · rintro ⟨hall, hnd, rfl⟩
    exact ⟨_, ⟨hall, hnd, rfl⟩, rfl⟩

/-- The node `create` starts. -/
theorem eq_of_create {address : Bytes} {shardIds : List UInt32} {numShards : UInt32}
    {shardEngine : UInt32 → ε} {blockEngine : β}
    (hw : create address shardIds numShards shardEngine blockEngine = .ok w) :
    (∀ i, w.shards.get i =
      if i ∈ shardIds then some (ShardTask.new address i (shardEngine i)) else none) ∧
    w.channel = [] ∧ w.block = ⟨BlockProposer.new address 0 numShards blockEngine, .idle⟩ := by
  obtain ⟨-, -, rfl⟩ := create_eq_ok.1 hw
  exact ⟨fun _ => rfl, rfl, rfl⟩

/-! ## No panics -/

/-- A step the node can answer without panicking: a shard's step its task can answer,
and a block proposal with a height. -/
def Event.Sound : Event → Prop
  | .shard _ e => e.Sound
  | .blockStep (.addProposedValue fp) => fp.height.isSome
  | _ => True

/-- A node whose tasks can always go on: every shard task in good shape, a well-formed
block proposal table, and only chunks with a header and a height on the channel. -/
structure OK (w : Node ε β) : Prop where
  shards : ∀ i t, w.shards.get i = some t → t.OK
  block : BlockProposer.TableOK w.block.proposer
  channel : ∀ c ∈ w.channel, Fileable c

theorem OK.of_create {address : Bytes} {shardIds : List UInt32} {numShards : UInt32}
    {shardEngine : UInt32 → ε} {blockEngine : β}
    (hw : create address shardIds numShards shardEngine blockEngine = .ok w) : w.OK := by
  obtain ⟨hs, hc, hb⟩ := eq_of_create hw
  refine ⟨fun i t ht => ?_, hb ▸ BlockProposer.TableOK.new _ _ _ _, fun c h => by simp [hc] at h⟩
  rw [hs i] at ht
  split_ifs at ht
  cases ht
  exact ShardTask.OK.new _ _ _

/-- **A node in good shape takes every step it can answer**, without panicking, and stays
in good shape. -/
theorem OK.step (hw : w.OK) {e : Event} (he : e.Sound) :
    ∃ w' o, w.step H G B e = .ok (w', o) ∧ w'.OK := by
  cases e with
  | shard i se =>
    cases ht : w.shards.get i with
    | none => exact ⟨w, [], by simp [Node.step, ht], hw⟩
    | some t =>
      obtain ⟨t', o, h1, ht', hsent⟩ := (hw.shards i t ht).step (H := H) (G := G i) he
      refine ⟨{ w with shards := w.shards.insert i t', channel := w.channel ++ ShardProposer.sent o },
        o.map (.shard i), by simp only [Node.step, ht, h1, ok_bind]; rfl, fun j tj hj => ?_,
        hw.block, fun c hc => ?_⟩
      · simp only [BTreeMap.get_insert] at hj
        split_ifs at hj
        · cases hj; exact ht'
        · exact hw.shards j tj hj
      · rcases List.mem_append.1 hc with hc | hc
        · exact hw.channel c hc
        · exact hsent c hc
  | blockTick now =>
    cases hp : w.block.phase with
    | idle => exact ⟨w, [], by simp [Node.step, hp], hw⟩
    | collecting height round =>
      obtain ⟨⟨tb, outs⟩, h1⟩ := BlockProposer.Task.step_ok (H := H) (B := B) hw.block
        (e := .tick w.channel.head? now)
        (fun r _ c he hr => by cases he; exact hw.channel c (List.mem_of_mem_head? hr)) nofun
      exact ⟨{ w with block := tb, channel := w.channel.tail }, outs.map .block,
        by simp only [Node.step, hp, h1, ok_bind]; rfl,
        hw.shards, hw.block.step h1, fun c hc => hw.channel c (List.mem_of_mem_tail hc)⟩
  | blockStep eb =>
    by_cases htick : ∃ r now, eb = .tick r now
    · obtain ⟨r, now, rfl⟩ := htick
      exact ⟨w, [], rfl, hw⟩
    · simp only [not_exists] at htick
      obtain ⟨⟨tb, outs⟩, h1⟩ := BlockProposer.Task.step_ok (H := H) (B := B) (e := eb) hw.block
        (fun r now _ he _ => absurd he (htick r now)) (fun fp he' => by subst he'; exact he)
      refine ⟨{ w with block := tb }, outs.map .block, ?_, hw.shards, hw.block.step h1, hw.channel⟩
      cases eb <;> first
        | exact absurd rfl (htick _ _)
        | (simp only [Node.step, h1, ok_bind]; rfl)

/-- **A node never panics on steps it can answer.** From `SnapchainNode::create`, every
run of steps the node can answer (every peer's proposal with a height, its chunk, if it
carries one, with a header and a height; every peer answering `register_validator` with
such chunks), in any interleaving of the tasks, ends without a panic: no `unwrap` fails,
in `decide`, in `add_proposed_value`, or on a chunk the block task takes from the
channel. -/
theorem run_never_panics {address : Bytes} {shardIds : List UInt32} {numShards : UInt32}
    {shardEngine : UInt32 → ε} {blockEngine : β}
    (hw : create address shardIds numShards shardEngine blockEngine = .ok w) {es : List Event}
    (he : ∀ e ∈ es, e.Sound) : ∃ w' os, w.run H G B es = .ok (w', os) := by
  obtain ⟨w', os, h, -⟩ := runSteps_ok (P := OK) (E := Event.Sound)
    (fun _ _ hw he => hw.step he) (OK.of_create hw) he
  exact ⟨w', os, h⟩

theorem run_never_panics_two_shards :
    ∃ w' os, twoShardNode.run Hasher.zero unitEngines BlockEngine.unit twoShardEvents =
      .ok (w', os) :=
  run_never_panics (show create [] [1, 2] 2 (fun _ => ()) () = .ok twoShardNode from rfl)
    (by
      intro e he
      simp only [twoShardEvents, List.mem_cons, List.mem_nil_iff, or_false] at he
      rcases he with rfl | rfl | rfl | rfl | rfl | rfl | rfl | rfl | rfl <;> trivial)

/-! ## Where the blocks' chunks come from -/

/-- **Every block a node proposes holds chunks its shards sent.** In every run of a node
from `SnapchainNode::create`, in any interleaving of its tasks, each block the block task
proposes holds chunks the shard tasks sent on the channel, in the order they were sent,
each at most once, all with the block's number. -/
theorem proposed_chunks_were_sent {address : Bytes} {shardIds : List UInt32}
    {numShards : UInt32} {shardEngine : UInt32 → ε} {blockEngine : β}
    (hw : create address shardIds numShards shardEngine blockEngine = .ok w) {es : List Event}
    {os : List Output} (h : w.run H G B es = .ok (w', os)) {p : FullProposal}
    (hp : .block (.proposed p) ∈ os) :
    ∃ height b, p.height = some height ∧ p.proposedValue = some (.block b) ∧
      b.shardChunks.Sublist (sentChunks os) ∧
      ∀ c ∈ b.shardChunks, BlockProposer.chunkBlockNumber c = some height.blockNumber := by
  obtain ⟨-, hc, hb⟩ := eq_of_create hw
  obtain ⟨bes, hrun⟩ := exists_block_run h
  have hfifo := run_channel_fifo h
  rw [hc, List.nil_append] at hfifo
  exact (BlockProposer.proposed_sublist_received (by simp [hb, BlockProposer.new]) hrun p
    (List.mem_filterMap.2 ⟨_, hp, rfl⟩)).mono (hfifo ▸ List.sublist_append_left _ _)

/-- The block the two-shard run proposes: block 1 of both shards' chunks, in the order
they were received. -/
def twoShardProposal : FullProposal :=
  ⟨some ⟨0, 1⟩, 0, some (.block ⟨some ⟨genesisParentHash, 0, 0, [], [], 0, some ⟨0, 1⟩⟩, [],
    none, none, [chunkAt 1 1, chunkAt 2 1]⟩), []⟩

theorem proposed_chunks_were_sent_two_shards :
    ∃ w' os, twoShardNode.run Hasher.zero unitEngines BlockEngine.unit twoShardEvents =
        .ok (w', os) ∧ .block (.proposed twoShardProposal) ∈ os ∧
      ∃ height b, twoShardProposal.height = some height ∧
        twoShardProposal.proposedValue = some (.block b) ∧
        b.shardChunks.Sublist (sentChunks os) ∧
        ∀ c ∈ b.shardChunks, BlockProposer.chunkBlockNumber c = some height.blockNumber := by
  obtain ⟨w', os, h⟩ : ∃ w' os,
      twoShardNode.run Hasher.zero unitEngines BlockEngine.unit twoShardEvents = .ok (w', os) :=
    ⟨_, _, rfl⟩
  have hp : Output.block (.proposed twoShardProposal) ∈ os := by
    have hm : (twoShardNode.run Hasher.zero unitEngines BlockEngine.unit twoShardEvents).map
        (fun r => decide (Output.block (.proposed twoShardProposal) ∈ r.2)) = .ok true := by
      decide
    rw [h] at hm
    simpa [Except.map] using hm
  exact ⟨w', os, h, hp, proposed_chunks_were_sent
    (show create [] [1, 2] 2 (fun _ => ()) () = .ok twoShardNode from rfl) h hp⟩

/-! ## Each shard is its proposer -/

/-- A shard task at the end of a run of a node from `create` is where its shard's own
task, started new, ends on the steps dispatched to its shard id, with the outputs tagged
with that id; and the shard was configured. -/
theorem shard_run_of_create {address : Bytes} {shardIds : List UInt32} {numShards : UInt32}
    {shardEngine : UInt32 → ε} {blockEngine : β}
    (hw : create address shardIds numShards shardEngine blockEngine = .ok w) {es : List Event}
    {os : List Output} (h : w.run H G B es = .ok (w', os)) {i : UInt32} {t : ShardTask ε}
    (ht : w'.shards.get i = some t) :
    i ∈ shardIds ∧ (ShardTask.new address i (shardEngine i)).run H (G i)
      (es.flatMap (Event.forShard i)) = .ok (t, shardOutputs i os) := by
  obtain ⟨hs, -, -⟩ := eq_of_create hw
  obtain ⟨hnone, hsome⟩ := run_shard_isolation h i
  by_cases hi : i ∈ shardIds
  · obtain ⟨t', ht', hrun⟩ := hsome (ShardTask.new address i (shardEngine i)) (by simp [hs, hi])
    obtain rfl : t' = t := Option.some.inj (ht'.symm.trans ht)
    exact ⟨hi, hrun⟩
  · simp [hnone (by simp [hs, hi])] at ht

/-- **Each shard of a node is its proposer.** In every run of a node from
`SnapchainNode::create`, in any interleaving of its tasks, a shard has a task only if it
was configured, and its task, once the decision in progress, if any, has resumed, is
where a run of the shard proposer's own calls from `ShardProposer::new` ends, with the
outputs tagged with its shard id, in order. -/
theorem shard_runs_as_proposer {address : Bytes} {shardIds : List UInt32} {numShards : UInt32}
    {shardEngine : UInt32 → ε} {blockEngine : β}
    (hw : create address shardIds numShards shardEngine blockEngine = .ok w) {es : List Event}
    {os : List Output} (h : w.run H G B es = .ok (w', os)) {i : UInt32} {t : ShardTask ε}
    (ht : w'.shards.get i = some t) :
    i ∈ shardIds ∧ ∃ calls,
      (ShardProposer.new address i (shardEngine i) true).run H (G i) calls =
        .ok ((t.resume (G i)).1.proposer, shardOutputs i os ++ (t.resume (G i)).2) := by
  obtain ⟨hi, hrun⟩ := shard_run_of_create hw h ht
  obtain ⟨calls, o', h1, h2⟩ := ShardTask.run_settles hrun
  rw [ShardTask.resume_of_none rfl, List.nil_append] at h2
  rw [ShardTask.resume_of_none rfl] at h1
  exact ⟨hi, calls, h2 ▸ h1⟩

end Node

end Snapchain
