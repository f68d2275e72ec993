import Snapchain.Spec.BlockProposer

/-!
# What each step does to the block proposer

One lemma per operation of `BlockProposer`, and `Task.step_cases` for a step of its
task. `TableOK` is the block proposer's well-formed proposal table: every entry is
filed under its own `shard_hash()` and carries a `Block` payload; it holds after every
run (`TableOK.run`), so `decide` never panics there (`TableOK.decide_ok`).

`proposeValue_refines_task` ties the two descriptions of `propose_value` together: the
call, with its loop over the poll ticks, and the task's steps, one a tick, end in the same
state and propose the same proposal.
-/

namespace Snapchain.BlockProposer

variable {β : Type} {H : Hasher} {B : BlockEngine β} {s s' : BlockProposer β}

/-! ## Filing a chunk -/

/-- The bucket map after `chunk` is filed at `bn`. -/
def fileAt (m : BTreeMap UInt64 (List ShardChunk)) (bn : UInt64) (chunk : ShardChunk) :
    BTreeMap UInt64 (List ShardChunk) :=
  m.insert bn ((m.get bn).getD [] ++ [chunk])

@[simp] theorem fileAt_get (m : BTreeMap UInt64 (List ShardChunk)) (bn k : UInt64)
    (chunk : ShardChunk) :
    (fileAt m bn chunk).get k = if k = bn then some ((m.get bn).getD [] ++ [chunk]) else m.get k :=
  rfl

/-- **Filing a chunk** that has a header and a height appends it to the bucket of its
block number; without either, it panics. -/
theorem fileChunk_eq {chunk : ShardChunk} {header : ShardHeader} {height : Height}
    (hh : chunk.header = some header) (hg : header.height = some height) :
    s.fileChunk chunk = .ok { s with pendingChunks := fileAt s.pendingChunks height.blockNumber chunk } := by
  unfold fileChunk fileAt
  cases hb : s.pendingChunks.get height.blockNumber <;> simp [hh, hg, hb]

theorem fileChunk_ok {chunk : ShardChunk} (h : s.fileChunk chunk = .ok s') :
    ∃ header height, chunk.header = some header ∧ header.height = some height ∧
      s' = { s with pendingChunks := fileAt s.pendingChunks height.blockNumber chunk } := by
  cases hh : chunk.header with
  | none => simp [fileChunk, hh] at h
  | some header =>
    cases hg : header.height with
    | none => simp [fileChunk, hh, hg] at h
    | some height =>
      rw [fileChunk_eq hh hg, Except.ok.injEq] at h
      exact ⟨header, height, rfl, hg, h.symm⟩

/-- A tick files what it received, if anything. -/
theorem tick_ok {r : Option ShardChunk} (h : s.tick r = .ok s') :
    (r = none ∧ s' = s) ∨ (∃ chunk, r = some chunk ∧ s.fileChunk chunk = .ok s') := by
  cases r with
  | none => exact .inl ⟨rfl, (Except.ok.inj h).symm⟩
  | some chunk => exact .inr ⟨chunk, rfl, h⟩

theorem tick_proposedBlocks {r : Option ShardChunk} (h : s.tick r = .ok s') :
    s'.proposedBlocks = s.proposedBlocks ∧ s'.engine = s.engine ∧ s'.address = s.address := by
  rcases tick_ok h with ⟨-, rfl⟩ | ⟨chunk, -, hf⟩
  · exact ⟨rfl, rfl, rfl⟩
  · obtain ⟨-, -, -, -, rfl⟩ := fileChunk_ok hf
    exact ⟨rfl, rfl, rfl⟩

/-! ## Proposals -/

/-- The header `propose_value` builds. -/
def ownHeader (B : BlockEngine β) (s : BlockProposer β) (height : Height) (now : UInt64) :
    BlockHeader :=
  ⟨match B.getLastBlock s.engine with
    | some block => block.hash
    | none => genesisParentHash, 0, 0, [], [], now, some height⟩

theorem buildProposal_snd (height : Height) (round : Int) (now : UInt64)
    (cs : List ShardChunk) :
    (s.buildProposal H B height round now cs).2 =
      ⟨some height, round, some (.block ⟨some (ownHeader B s height now),
        H.blockHeader (ownHeader B s height now), none, none, cs⟩), s.address⟩ := rfl

@[simp] theorem buildProposal_pendingChunks (height : Height) (round : Int) (now : UInt64)
    (cs : List ShardChunk) :
    (s.buildProposal H B height round now cs).1.pendingChunks = s.pendingChunks := rfl

@[simp] theorem buildProposal_engine (height : Height) (round : Int) (now : UInt64)
    (cs : List ShardChunk) :
    (s.buildProposal H B height round now cs).1.engine = s.engine := rfl

/-- `propose_value` files the proposal it returns under that proposal's `shard_hash()`. -/
theorem buildProposal_table (height : Height) (round : Int) (now : UInt64)
    (cs : List ShardChunk) :
    ∃ k, (s.buildProposal H B height round now cs).2.shardHash = .ok k ∧
      (s.buildProposal H B height round now cs).1 =
        { s with proposedBlocks :=
          s.proposedBlocks.insert k (s.buildProposal H B height round now cs).2 } :=
  ⟨_, rfl, rfl⟩

/-- **`add_proposed_value`**: a `Block` proposal is filed under its `shard_hash()`; any
other proposal changes nothing. Either way the answer is `Valid`. -/
theorem addProposedValue_cases {fp : FullProposal} {v : Validity}
    (h : s.addProposedValue fp = .ok (s', v)) :
    v = .valid ∧
      ((∃ b k, fp.proposedValue = some (.block b) ∧ fp.shardHash = .ok k ∧
        s' = { s with proposedBlocks := s.proposedBlocks.insert k fp }) ∨
      ((∀ b, fp.proposedValue ≠ some (.block b)) ∧ s' = s)) := by
  unfold addProposedValue at h
  split at h
  · rename_i b hb
    cases hk : fp.shardHash with
    | error e => simp [hk] at h
    | ok k =>
      simp only [hk, ok_bind, pure_eq_ok, Except.ok.injEq, Prod.mk.injEq] at h
      exact ⟨h.2.symm, .inl ⟨b, k, hb, rfl, h.1.symm⟩⟩
  · rename_i hne
    simp only [pure_eq_ok, Except.ok.injEq, Prod.mk.injEq] at h
    exact ⟨h.2.symm, .inr ⟨fun b hb => hne b hb, h.1.symm⟩⟩

/-- **`decide`**: without an entry under the key it changes nothing; with one, it commits
the block of its `Block` payload and evicts the entry and the decided height's bucket. -/
theorem decide_cases {height : Height} {round : Int} {value : ShardHash} {ob : Option Block}
    (h : s.decide B height round value = .ok (s', ob)) :
    (s.proposedBlocks.get value = none ∧ s' = s ∧ ob = none) ∨
    (∃ p b, s.proposedBlocks.get value = some p ∧ p.block = some b ∧ ob = some b ∧
      s' = { s with
        engine := B.commitBlock s.engine b
        proposedBlocks := s.proposedBlocks.remove value
        pendingChunks := s.pendingChunks.remove height.blockNumber }) := by
  unfold decide at h
  cases hv : s.proposedBlocks.get value with
  | none =>
    simp only [hv, pure_eq_ok, Except.ok.injEq, Prod.mk.injEq] at h
    exact .inl ⟨rfl, h.1.symm, h.2.symm⟩
  | some p =>
    cases hb : p.block with
    | none => simp [hv, hb] at h
    | some b =>
      simp only [hv, hb, unwrap_some, ok_bind, pure_eq_ok, Except.ok.injEq,
        Prod.mk.injEq] at h
      exact .inr ⟨p, b, rfl, hb, h.2.symm, h.1.symm⟩

/-! ## A step of the task -/

/-- **A step of the task**, by what it is. -/
theorem Task.step_cases {t t' : Task β} {e : Event} {o : List Output}
    (h : t.step H B e = .ok (t', o)) :
    (t' = t ∧ o = []) ∨
    (∃ height round, t.phase = .idle ∧ e = .proposeValue height round ∧
      t' = ⟨t.proposer, .collecting height round⟩ ∧ o = []) ∨
    (∃ height round r now s, t.phase = .collecting height round ∧ e = .tick r now ∧
      t.proposer.tick r = .ok s ∧
      ((s.collected height.blockNumber = true ∧ t' = (finish H B s height round now).1 ∧
          o = r.toList.map .received ++ (finish H B s height round now).2) ∨
        (s.collected height.blockNumber = false ∧ t' = ⟨s, .collecting height round⟩ ∧
          o = r.toList.map .received))) ∨
    (∃ height round now, t.phase = .collecting height round ∧ e = .deadline now ∧
      (t', o) = finish H B t.proposer height round now) ∨
    (∃ fp s v, t.phase = .idle ∧ e = .addProposedValue fp ∧
      t.proposer.addProposedValue fp = .ok (s, v) ∧ t' = ⟨s, .idle⟩ ∧ o = [.validity v]) ∨
    (∃ height round value s ob, t.phase = .idle ∧ e = .decide height round value ∧
      t.proposer.decide B height round value = .ok (s, ob) ∧ t' = ⟨s, .idle⟩ ∧
      o = (match ob with
        | none => []
        | some block => [.committed height block, .published block])) ∨
    (∃ validator peer, t.phase = .idle ∧ e = .registerValidator validator peer ∧ t' = t ∧
      ∀ x ∈ o, (∃ b, x = .published b) ∨ ∃ err, x = .rpcError err) := by
  obtain ⟨s0, phase⟩ := t
  simp only [Task.step] at h
  split at h
  · simp only [pure_eq_ok, Except.ok.injEq, Prod.mk.injEq] at h
    exact .inr (.inl ⟨_, _, rfl, rfl, h.1.symm, h.2.symm⟩)
  · rename_i height round r now
    obtain ⟨s, h1, h2⟩ := bind_eq_ok.1 h
    refine .inr (.inr (.inl ⟨height, round, r, now, s, rfl, rfl, h1, ?_⟩))
    cases hc : s.collected height.blockNumber <;>
      simp only [hc, if_true, if_false, Bool.false_eq_true, pure_eq_ok, Except.ok.injEq,
        Prod.mk.injEq] at h2
    · exact .inr ⟨rfl, h2.1.symm, h2.2.symm⟩
    · exact .inl ⟨rfl, h2.1.symm, h2.2.symm⟩
  · simp only [pure_eq_ok, Except.ok.injEq] at h
    exact .inr (.inr (.inr (.inl ⟨_, _, _, rfl, rfl, h.symm⟩)))
  · obtain ⟨⟨s, v⟩, h1, h2⟩ := bind_eq_ok.1 h
    simp only [pure_eq_ok, Except.ok.injEq, Prod.mk.injEq] at h2
    exact .inr (.inr (.inr (.inr (.inl ⟨_, s, v, rfl, rfl, h1, h2.1.symm, h2.2.symm⟩))))
  · rename_i height round value
    obtain ⟨⟨s, ob⟩, h1, h2⟩ := bind_eq_ok.1 h
    refine .inr (.inr (.inr (.inr (.inr (.inl ⟨height, round, value, s, ob, rfl, rfl, h1, ?_⟩)))))
    cases ob <;>
    · simp only [pure_eq_ok, Except.ok.injEq, Prod.mk.injEq] at h2
      exact ⟨h2.1.symm, h2.2.symm⟩
  · refine .inr (.inr (.inr (.inr (.inr (.inr ⟨_, _, rfl, rfl, ?_⟩)))))
    split at h <;>
    · simp only [pure_eq_ok, Except.ok.injEq, Prod.mk.injEq] at h
      obtain ⟨rfl, rfl⟩ := h
      simp
  · simp only [pure_eq_ok, Except.ok.injEq, Prod.mk.injEq] at h
    exact .inl ⟨h.1.symm, h.2.symm⟩

/-! ## The proposal table -/

/-- The proposal table is well formed: each entry is filed under its own
`shard_hash()` and carries a `Block` payload. -/
structure TableOK (s : BlockProposer β) : Prop where
  keyed : ∀ k p, s.proposedBlocks.get k = some p → p.shardHash = .ok k
  block : ∀ k p, s.proposedBlocks.get k = some p → p.block.isSome

theorem TableOK.new (address : Bytes) (shardId numShards : UInt32) (engine : β) :
    TableOK (BlockProposer.new address shardId numShards engine) :=
  ⟨fun _ _ h => by simp [BlockProposer.new] at h, fun _ _ h => by simp [BlockProposer.new] at h⟩

theorem TableOK.of_eq (hs : TableOK s) (h : s'.proposedBlocks = s.proposedBlocks) :
    TableOK s' :=
  ⟨fun k p hp => hs.keyed k p (h ▸ hp), fun k p hp => hs.block k p (h ▸ hp)⟩

/-- Filing a well-formed entry keeps the table well formed. -/
theorem TableOK.insert (hs : TableOK s) {k : ShardHash} {p : FullProposal}
    (hk : p.shardHash = .ok k) (hp : p.block.isSome) :
    TableOK { s with proposedBlocks := s.proposedBlocks.insert k p } := by
  constructor <;> intro k' p' h <;> simp only [BTreeMap.get_insert] at h <;> split_ifs at h
  · cases h; subst k'; exact hk
  · exact hs.keyed k' p' h
  · cases h; exact hp
  · exact hs.block k' p' h

theorem TableOK.buildProposal (hs : TableOK s) (height : Height) (round : Int) (now : UInt64)
    (cs : List ShardChunk) : TableOK (s.buildProposal H B height round now cs).1 := by
  obtain ⟨k, hk, he⟩ := buildProposal_table (s := s) (H := H) (B := B) height round now cs
  rw [he]
  exact hs.insert hk (by simp [buildProposal_snd, FullProposal.block])

/-- **Every step keeps the proposal table well formed.** -/
theorem TableOK.step {t t' : Task β} (hs : TableOK t.proposer) {e : Event} {o : List Output}
    (h : t.step H B e = .ok (t', o)) : TableOK t'.proposer := by
  rcases Task.step_cases h with ⟨rfl, -⟩ | ⟨-, -, -, -, rfl, -⟩ |
    ⟨height, round, r, now, s, -, -, h1, hfin⟩ | ⟨height, round, now, -, -, hfin⟩ |
    ⟨fp, s, v, -, -, h1, rfl, -⟩ | ⟨height, round, value, s, ob, -, -, h1, rfl, -⟩ |
    ⟨-, -, -, -, rfl, -⟩
  · exact hs
  · exact hs
  · have hs1 : TableOK s := hs.of_eq (tick_proposedBlocks h1).1
    rcases hfin with ⟨-, rfl, -⟩ | ⟨-, rfl, -⟩
    · exact hs1.buildProposal height round now _
    · exact hs1
  · cases hfin; exact hs.buildProposal height round now _
  · rcases (addProposedValue_cases h1).2 with ⟨b, k, hb, hk, rfl⟩ | ⟨-, rfl⟩
    · exact hs.insert hk (by simp [FullProposal.block, hb])
    · exact hs
  · rcases decide_cases h1 with ⟨-, rfl, -⟩ | ⟨p, b, -, -, -, rfl⟩
    · exact hs
    · constructor <;> intro k p' hp <;> simp only [BTreeMap.get_remove] at hp <;>
        split_ifs at hp
      · exact hs.keyed k p' hp
      · exact hs.block k p' hp
  · exact hs

/-- The proposal table is well formed after every run of a new proposer's task. -/
theorem TableOK.run {address : Bytes} {shardId numShards : UInt32} {engine : β}
    {events : List Event} {t : Task β} {os : List Output}
    (h : Task.run H B ⟨BlockProposer.new address shardId numShards engine, .idle⟩ events =
      .ok (t, os)) : TableOK t.proposer :=
  runSteps_inv (P := fun t : Task β => TableOK t.proposer)
    (fun _ _ _ _ hs hstep => hs.step hstep) (TableOK.new _ _ _ _) h

/-- In a well-formed table, `decide` finds a `Block` payload whenever it finds an entry:
its `block().unwrap()` never panics. -/
theorem TableOK.decide_ok (hs : TableOK s) (height : Height) (round : Int) (value : ShardHash) :
    ∃ r, s.decide B height round value = .ok r := by
  unfold decide
  cases hv : s.proposedBlocks.get value with
  | none => exact ⟨_, rfl⟩
  | some p =>
    obtain ⟨b, hb⟩ := Option.isSome_iff_exists.1 (hs.block value p hv)
    exact ⟨_, by simp [hb]; rfl⟩

/-! ## `propose_value`, step by step -/

/-- The proposals among the outputs. -/
def proposals (os : List Output) : List FullProposal :=
  os.filterMap fun
    | .proposed p => some p
    | _ => none

theorem proposeValue_eq (height : Height) (round : Int) (ticks : List (Option ShardChunk))
    (now : UInt64) :
    s.proposeValue H B height round ticks now =
      (s.collectLoop height.blockNumber ticks).map fun s' =>
        s'.buildProposal H B height round now (s'.collectedChunks height.blockNumber) := by
  simp only [proposeValue, collectConfirmedShardChunks]
  cases s.collectLoop height.blockNumber ticks <;> rfl

/-- Once the task is idle, ticks and the deadline change nothing. -/
theorem run_idle_ticks (p : BlockProposer β) (now : UInt64) :
    ∀ rs : List (Option ShardChunk),
      Task.run H B ⟨p, .idle⟩ ((rs.map fun r => .tick r now) ++ [.deadline now]) =
        .ok (⟨p, .idle⟩, [])
  | [] => rfl
  | r :: rs => by
    rw [Task.run, List.map_cons, List.cons_append, runSteps_cons_of_ok rfl]
    exact congrArg (Except.map _) (run_idle_ticks p now rs)

/-- The loop of `collect_confirmed_shard_chunks` and the task's steps in the collecting
phase end in the same state and propose the same proposal, or panic alike. -/
theorem run_collecting (height : Height) (round : Int) (now : UInt64) :
    ∀ (s : BlockProposer β) (rs : List (Option ShardChunk)),
      (Task.run H B ⟨s, .collecting height round⟩ ((rs.map fun r => .tick r now) ++
          [.deadline now])).map (fun r => (r.1, proposals r.2)) =
        (s.collectLoop height.blockNumber rs).map fun s' =>
          (⟨(finish H B s' height round now).1.proposer, .idle⟩,
            [(s'.buildProposal H B height round now (s'.collectedChunks height.blockNumber)).2])
  | s, [] => rfl
  | s, r :: rs => by
    rw [Task.run, List.map_cons, List.cons_append]
    cases ht : s.tick r with
    | error e => simp [runSteps, Task.step, ht, collectLoop, Except.map]
    | ok s₁ =>
      cases hc : s₁.collected height.blockNumber with
      | false =>
        have hstep : Task.step H B ⟨s, .collecting height round⟩ (.tick r now) =
            .ok (⟨s₁, .collecting height round⟩, r.toList.map .received) := by
          simp [Task.step, ht, hc]
        rw [runSteps_cons_of_ok hstep]
        have ih := run_collecting height round now s₁ rs
        rw [Task.run] at ih
        simp only [collectLoop, ht, ok_bind, hc, Bool.false_eq_true, if_false]
        rw [← ih]
        cases runSteps (Task.step H B) ⟨s₁, .collecting height round⟩
          ((rs.map fun r => .tick r now) ++ [.deadline now]) <;>
          simp [Except.map, proposals, List.filterMap_append, List.filterMap_map,
            Function.comp_def]
      | true =>
        have hstep : Task.step H B ⟨s, .collecting height round⟩ (.tick r now) =
            .ok ((finish H B s₁ height round now).1,
              r.toList.map .received ++ (finish H B s₁ height round now).2) := by
          simp [Task.step, ht, hc]
        have hidle := run_idle_ticks (H := H) (B := B)
          (finish H B s₁ height round now).1.proposer now rs
        rw [runSteps_cons_of_ok hstep]
        rw [Task.run] at hidle
        simp only [collectLoop, ht, ok_bind, hc, if_true]
        rw [show (finish H B s₁ height round now).1 =
          ⟨(finish H B s₁ height round now).1.proposer, .idle⟩ from rfl, hidle]
        simp [Except.map, proposals, List.filterMap_append, List.filterMap_map,
          Function.comp_def, finish]

/-- **`propose_value` is the task's collection.** From an idle task, the steps of a
`propose_value` call (a tick for each poll of the loop, all read at `now`, then the
deadline) end idle in the state `propose_value` leaves and propose exactly the proposal
it returns; they panic exactly when it does. -/
theorem proposeValue_refines_task (s : BlockProposer β) (height : Height) (round : Int)
    (ticks : List (Option ShardChunk)) (now : UInt64) :
    (Task.run H B ⟨s, .idle⟩ (.proposeValue height round :: (ticks.map fun r => .tick r now) ++
        [.deadline now])).map (fun r => (r.1, proposals r.2)) =
      (s.proposeValue H B height round ticks now).map fun r => (⟨r.1, .idle⟩, [r.2]) := by
  have hstart : Task.step H B ⟨s, .idle⟩ (.proposeValue height round) =
      .ok (⟨s, .collecting height round⟩, []) := rfl
  have h := run_collecting (H := H) (B := B) height round now s ticks
  rw [Task.run] at h ⊢
  rw [List.cons_append, runSteps_cons_of_ok hstart, proposeValue_eq]
  revert h
  cases runSteps (Task.step H B) ⟨s, .collecting height round⟩
    ((ticks.map fun r => .tick r now) ++ [.deadline now]) <;>
  cases s.collectLoop height.blockNumber ticks <;>
  simp [Except.map, finish]

end Snapchain.BlockProposer
